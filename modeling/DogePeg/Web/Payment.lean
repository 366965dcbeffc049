import DogePeg.Encoding
import DogePeg.Lib.Text
import DogePeg.Scripts

/-!
# The wallet's payments

How the wallet page plans and signs a payment (`cmd/dogevm/web/chain.js`). Each coin a server lists is
checked against the bytes of the transaction that made it: legacy signatures do not commit to the values
they spend. Amounts are the page's big integers. A server's JSON may hold anything as an output's index;
what names no output of the transaction fails.
-/

namespace DogePeg.Web

open Bytes Checks Readers Text List Parses

inductive WalletError where
  | truncated
  | tooLarge
  | notHex
  | noAnswer
  | wrongTransaction (txid : List Char)
  | noOutput (txid : List Char) (vout : ℕ)
  | notYours (txid : List Char) (vout : ℕ)
  | badValue
  | smallest
  | notEnough (have_ need : ℕ)
  | feeTooHigh (fee : ℕ)
  | pushTooLarge
  | differs
  deriving DecidableEq

/-! ## Transactions -/

structure Input where
  txid : List Char
  vout : ℕ
  script : List UInt8
  deriving DecidableEq

structure Output where
  value : ℕ
  script : List UInt8
  deriving DecidableEq

structure Tx where
  version : ℕ
  inputs : List Input
  outputs : List Output
  deriving DecidableEq

def varint (n : ℕ) : List UInt8 :=
  if n < 0xfd then [UInt8.ofNat n]
  else if n ≤ 0xffff then 0xfd::leBytes 2 n
  else 0xfe::leBytes 4 n

def Input.bytes (i : Input) : Except WalletError (List UInt8) := do
  let hash ← found (hexDecode i.txid) .notHex
  return hash.reverse++leBytes 4 i.vout++varint i.script.length++i.script++leBytes 4 0xffffffff

def Output.bytes (o : Output) : List UInt8 := leBytes 8 o.value++varint o.script.length++o.script

def serialize (tx : Tx) : Except WalletError (List UInt8) := do
  let inputs ← tx.inputs.mapM Input.bytes
  return leBytes 4 tx.version++varint tx.inputs.length++inputs.flatten++varint tx.outputs.length ++
    tx.outputs.flatMap Output.bytes++leBytes 4 0

/-! ## Reading a transaction -/

def readVarint : Reader WalletError ℕ := do
  let b ← littleEndian 1 .truncated
  if b < 0xfd then return b
  else if b = 0xfd then littleEndian 2 .truncated
  else if b = 0xfe then littleEndian 4 .truncated
  else throw .tooLarge

def skipInput : Reader WalletError Unit := do
  let _ ← takeBytes 36 .truncated
  let len ← readVarint
  let _ ← takeBytes (len+4) .truncated

def readOutput : Reader WalletError Output := do
  let value ← littleEndian 8 .truncated
  let len ← readVarint
  let script ← takeBytes len .truncated
  return ⟨value,script⟩

/-- What `parseOutputs` reads after the version. -/
def readOutputs : Reader WalletError (List Output) := do
  let inputs ← readVarint
  let _ ← many skipInput inputs
  let count ← readVarint
  many readOutput count

/-- `parseOutputs`: what follows the outputs is not read. -/
def parseOutputs (raw : List UInt8) : Except WalletError (List Output) :=
  (readOutputs.run (raw.drop 4)).map Prod.fst

/-! ## Planning -/

/-- An entry of a server's list. `value` is what `BigInt` makes of the entry's, if it does. -/
structure Listed where
  txid : List Char
  vout : ℕ
  value : Option ℤ
  script : List Char
  confirmed : Bool
  deriving DecidableEq

/-- An input whose value was read from the transaction that made it. -/
structure Verified where
  txid : List Char
  vout : ℕ
  value : ℕ
  deriving DecidableEq

def koinu : ℕ := 100000000

def softDust : ℕ := koinu / 100

def hardDust : ℕ := softDust / 10

def maxFee : ℕ := 5*koinu

def paymentSize (inputs outputs : ℕ) (data : Option (List UInt8)) : ℕ :=
  10+149*inputs+34*(outputs+1)+match data with
    | none => 0
    | some bytes => if bytes.length = 0 then 0 else bytes.length+3

def pushData (data : List UInt8) : Except WalletError (List UInt8) :=
  if data.length < 0x4c then .ok (UInt8.ofNat data.length::data)
  else if data.length ≤ 0xff then .ok (0x4c::UInt8.ofNat data.length::data)
  else .error .pushTooLarge

def opReturn (data : List UInt8) : Except WalletError Output := do
  let push ← pushData data
  return ⟨0,0x6a::push⟩

/-- What a payment is to pay, and the script of the key that pays it. -/
structure Payment where
  fromScript : List UInt8
  script : List UInt8
  amount : ℕ
  data : Option (List UInt8)
  feePerByte : ℕ

/-- A server: the entries it lists, and its answer to each request for a transaction. -/
structure Server where
  utxos : List Listed
  getRawTx : ℕ → List Char → Option (List Char)

structure Plan where
  tx : Tx
  inputTotal : ℕ
  fee : ℕ
  unsignedHex : List Char
  deriving DecidableEq

section

variable (dsha : List UInt8 → Hash)

/-- `txid`: the double SHA-256, byte-reversed. -/
def txid (raw : List UInt8) : List Char := hexEncode (toBytes 32 (dsha raw).toNat).reverse

def verifiedInput (u : Listed) (answer : Option (List Char)) (fromScript : List UInt8) :
    Except WalletError Verified := do
  let text ← found answer .noAnswer
  let raw ← found (hexDecode text) .notHex
  ensure (txid dsha raw = u.txid) (.wrongTransaction u.txid)
  let outputs ← parseOutputs raw
  let out ← found outputs[u.vout]? (.noOutput u.txid u.vout)
  ensure (hexEncode out.script = hexEncode fromScript) (.notYours u.txid u.vout)
  return ⟨u.txid,u.vout,out.value⟩

structure Gathered where
  inputs : List Verified
  total : ℕ
  fee : ℕ

namespace Payment

variable (p : Payment)

def outputs : Except WalletError (List Output) :=
  match p.data with
  | none => .ok [⟨p.amount,p.script⟩]
  | some data => do
    let out ← opReturn data
    return [⟨p.amount,p.script⟩,out]

def dustFee : ℕ := if p.amount < softDust then softDust else 0

/-- The fee of a payment that spends so many coins and has so many outputs before its change. -/
def feeFor (inputs outputs : ℕ) : ℕ := paymentSize inputs outputs p.data*p.feePerByte+p.dustFee

def add (outputs : ℕ) (g : Gathered) (input : Verified) : Gathered :=
  ⟨g.inputs++[input],g.total+input.value,p.feeFor (g.inputs.length+1) outputs⟩

/-- The loop over the spendable coins: each round asks the server for one transaction. -/
def gather (getRawTx : ℕ → List Char → Option (List Char)) (outputs : ℕ) :
    Gathered → List Listed → Except WalletError Gathered
  | g, [] => .ok g
  | g, u::rest => do
    let input ← verifiedInput dsha u (getRawTx g.inputs.length u.txid) p.fromScript
    let g := p.add outputs g input
    if p.amount+g.fee ≤ g.total then return g else gather getRawTx outputs g rest

def spendable (utxos : List Listed) : Except WalletError (List Listed) :=
  (utxos.filter fun u => u.confirmed && u.script = hexEncode p.fromScript).mapM fun u => do
    let _ ← found u.value .badValue
    return u

/-- `planPayment`. The comparison it sorts by is not an order, so the order is the engine's. -/
def planPayment (sort : List Listed → List Listed) (server : Server) : Except WalletError Plan := do
  ensure (hardDust ≤ p.amount) .smallest
  let spendable ← p.spendable server.utxos
  let outputs ← p.outputs
  let g ← p.gather dsha server.getRawTx outputs.length ⟨[],0,0⟩ (sort spendable)
  ensure (p.amount+g.fee ≤ g.total) (.notEnough g.total (p.amount+g.fee))
  let change := g.total-p.amount-g.fee
  let (outputs,fee) :=
    if softDust ≤ change then (outputs++[⟨change,p.fromScript⟩],g.fee) else (outputs,g.fee+change)
  ensure (fee ≤ maxFee) (.feeTooHigh fee)
  let tx : Tx := ⟨1,g.inputs.map fun i => ⟨i.txid,i.vout,[]⟩, outputs⟩
  let raw ← serialize tx
  return ⟨tx,g.total,fee,hexEncode raw⟩

end Payment

/-! ## Signing -/

/-- The key's signature of a hash, in strict DER, and its public key. -/
structure Key where
  sign : Hash → List UInt8
  pub : List UInt8

structure Signed where
  hex : List Char
  txid : List Char
  fee : ℕ
  deriving DecidableEq

/-- `sighash`: the input being signed carries the script it spends. -/
def sighash (tx : Tx) (index : ℕ) (prevScript : List UInt8) : Except WalletError Hash := do
  let copy := tx.inputs.zipIdx.map fun p => { p.1 with script := if p.2 = index then prevScript else [] }
  let raw ← serialize { tx with inputs := copy }
  return dsha (raw++leBytes 4 1)

def signInput (key : Key) (fromScript : List UInt8) (tx : Tx) (p : Input × ℕ) : Except WalletError Input := do
  let digest ← sighash dsha tx p.2 fromScript
  let sig ← pushData (key.sign digest++[1])
  let pub ← pushData key.pub
  return { p.1 with script := sig++pub }

def signPlan (key : Key) (fromScript : List UInt8) (plan : Plan) : Except WalletError Signed := do
  let inputs ← plan.tx.inputs.zipIdx.mapM (signInput dsha key fromScript plan.tx)
  let raw ← serialize { plan.tx with inputs := inputs }
  let signed ← parseOutputs raw
  let unsigned ← found (hexDecode plan.unsignedHex) .notHex
  let reviewed ← parseOutputs unsigned
  ensure (signed = reviewed) .differs
  return ⟨hexEncode raw,txid dsha raw,plan.fee⟩

end

/-! ## What is written reads back -/

theorem reads_varint {n : ℕ} (h : n<2^32) : Parses readVarint (varint n) n := by
  unfold varint
  split_ifs with hsmall hshort
  · have hn : (UInt8.ofNat n).toNat = n := by
      rw [UInt8.toNat_ofNat']
      omega
    rw [← append_nil [UInt8.ofNat n]]
    refine (byte _ _).bind ?_
    rw [hn,if_pos hsmall]
    exact pure n
  · exact (byte _ _).bind (littleEndian (show n < 256^2 by omega) _)
  · exact (byte _ _).bind (littleEndian (show n < 256^4 by omega) _)

theorem reads_input {outPoint script sequence : List UInt8} (hpoint : outPoint.length=36)
    (hscript : script.length<2^32) (hsequence : sequence.length=4) :
    Parses skipInput (outPoint++varint script.length++script++sequence) () := by
  have hpoint' : Parses (takeBytes 36 WalletError.truncated) outPoint outPoint := hpoint ▸ takeBytes outPoint _
  have hrest : Parses (takeBytes (script.length+4) WalletError.truncated) (script++sequence) (script++sequence) := by
    have hlen : (script++sequence).length = script.length+4 := by rw [length_append,hsequence]
    exact hlen ▸ takeBytes (script++sequence) _
  have hread : Parses skipInput (outPoint++(varint script.length++(script++sequence))) () :=
    hpoint'.bind ((reads_varint hscript).bind hrest.map)
  simpa only [append_assoc] using hread

theorem reads_output {value : ℕ} {script : List UInt8} (hvalue : value<2^64) (hscript : script.length<2^32) :
    Parses readOutput (leBytes 8 value++varint script.length++script) ⟨value,script⟩ := by
  have hread : Parses readOutput (leBytes 8 value++(varint script.length++script)) ⟨value,script⟩ :=
    (littleEndian (show value < 256^8 by omega) _).bind ((reads_varint hscript).bind (takeBytes script _).map)
  simpa only [append_assoc] using hread

theorem parseOutputs_bytes {α β : Type} {version rest : List UInt8} {inputs : List α} {outputs : List β}
    {writeInput : α → List UInt8} {writeOutput : β → List UInt8} {output : β → Output} (hversion : version.length=4)
    (hinputs : inputs.length<2^32) (houtputs : outputs.length<2^32)
    (hinput : ∀ i∈inputs, Parses skipInput (writeInput i) ())
    (houtput : ∀ o∈outputs, Parses readOutput (writeOutput o) (output o)) :
    parseOutputs (version++varint inputs.length++inputs.flatMap writeInput++varint outputs.length ++
      outputs.flatMap writeOutput++rest) = .ok (outputs.map output) := by
  have hread : Parses readOutputs (varint inputs.length++(inputs.flatMap writeInput++(varint outputs.length ++
      outputs.flatMap writeOutput))) (outputs.map output) :=
    (reads_varint hinputs).bind ((many hinput).bind ((reads_varint houtputs).bind (many houtput)))
  have hrun := hread rest
  simp only [append_assoc] at hrun
  unfold parseOutputs
  simp only [append_assoc]
  rw [drop_left' hversion,hrun]
  rfl

theorem varIntBytes_eq {n : ℕ} (h : n<2^32) : varIntBytes n = varint n := by
  have hle : n ≤ 0xffffffff := by omega
  rw [varIntBytes,varint]
  simp only [hle,if_true]

/-- A transaction on a chain: its lengths are what a message carries, and its outputs hold what an
output may. -/
structure OnChain (m : MsgTx) : Prop where
  inputs : m.txIn.length < 2^32
  inputScripts : ∀ i∈m.txIn, i.signatureScript.length < 2^32
  outputScripts : ∀ o∈m.txOut, o.pkScript.length < 2^32
  values : ∀ o∈m.txOut, 0 ≤ o.value.toInt ∧ o.value.toInt ≤ 10^18

/-- An output as the page reads it. -/
def seen (o : TxOut) : Output := ⟨o.value.toUInt64.toNat,o.pkScript⟩

theorem OnChain.parseOutputs {m : MsgTx} (h : OnChain m) : parseOutputs m.bytesNoWitness = .ok (m.txOut.map seen) := by
  have hcount : m.txOut.length < 2^32 := by
    have := m.outputs_le
    unfold maxTxOutPerMessage at this
    omega
  rw [MsgTx.bytesNoWitness,varIntBytes_eq h.inputs,varIntBytes_eq hcount]
  refine parseOutputs_bytes (length_leBytes ..) h.inputs hcount (fun i hi => ?_) (fun o ho => ?_)
  · rw [TxIn.bytes,varIntBytes_eq (h.inputScripts i hi)]
    exact reads_input (by simp [OutPoint.bytes]) (h.inputScripts i hi) (length_leBytes ..)
  · rw [TxOut.bytes,varIntBytes_eq (h.outputScripts o ho)]
    exact reads_output o.value.toUInt64.toNat_lt (h.outputScripts o ho)

/-- An identifier the page has checked. -/
def IsTxid (id : List Char) : Prop := ∃ hash : List UInt8, hash.length = 32 ∧ id = hexEncode hash

theorem parseOutputs_serialize {tx : Tx} {raw : List UInt8} (h : serialize tx = .ok raw)
    (hinputs : tx.inputs.length<2^32) (hin : ∀ i∈tx.inputs, IsTxid i.txid ∧ i.script.length < 2^32)
    (houtputs : tx.outputs.length<2^32)
    (hout : ∀ o∈tx.outputs, o.value < 2^64 ∧ o.script.length < 2^32) : parseOutputs raw = .ok tx.outputs := by
  simp only [serialize,checks_ok] at h
  obtain ⟨pieces,hpieces,rfl⟩ := h
  have hlen : pieces.length = tx.inputs.length := (forall₂_of_mapM_ok hpieces).length_eq.symm
  have hread : (∀ piece∈pieces, Parses skipInput (id piece) ()) →
      (∀ o∈tx.outputs, Parses readOutput o.bytes (id o)) → parseOutputs (leBytes 4 tx.version ++
        varint pieces.length++pieces.flatMap id++varint tx.outputs.length++tx.outputs.flatMap Output.bytes ++
        leBytes 4 0) = .ok (tx.outputs.map id) := parseOutputs_bytes (length_leBytes ..) (hlen ▸ hinputs) houtputs
  rw [flatMap_id,map_id,hlen] at hread
  refine hread (fun piece hpiece => ?_) (fun o ho => ?_)
  · obtain ⟨i,hi,hbytes⟩ := exists_of_mem_mapM hpieces piece hpiece
    obtain ⟨⟨hash,hhash,hid⟩,hscript⟩ := hin i hi
    simp only [Input.bytes,checks_ok,hid,hexDecode_hexEncode,Option.some.injEq] at hbytes
    obtain ⟨_,rfl,rfl⟩ := hbytes
    exact reads_input (by simp [hhash]) hscript (length_leBytes ..)
  · exact reads_output (hout o ho).1 (hout o ho).2

/-! ## The coins gathered -/

def Input.point (i : Input) : List Char × ℕ := (i.txid,i.vout)

def Verified.point (i : Verified) : List Char × ℕ := (i.txid,i.vout)

def Listed.point (u : Listed) : List Char × ℕ := (u.txid,u.vout)

/-- The transaction a server sends for an input, and the output it names there. -/
structure Backed (dsha : List UInt8 → Hash) (server : Server) (fromScript : List UInt8) (i : Verified) : Prop where
  raw : ∃ n text raw outputs, server.getRawTx n i.txid = some text ∧ hexDecode text = some raw ∧
    txid dsha raw = i.txid ∧ parseOutputs raw = .ok outputs ∧ outputs[i.vout]? = some ⟨i.value,fromScript⟩

open Payment

open Verified

section

variable {dsha : List UInt8 → Hash} {server : Server} {p : Payment} {i : Verified} {plan : Plan}
  {sort : List Listed → List Listed} {network : List MsgTx}

theorem verifiedInput_ok {n : ℕ} {u : Listed}
    (h : verifiedInput dsha u (server.getRawTx n u.txid) p.fromScript = .ok i) :
    i.txid = u.txid ∧ i.vout = u.vout ∧ Backed dsha server p.fromScript i := by
  simp only [verifiedInput,checks_ok,decide_eq_true_eq] at h
  obtain ⟨text,htext,raw,hraw,hid,outputs,houtputs,out,hout,hscript,rfl⟩ := h
  have hyours := hexEncode_injective hscript
  exact ⟨rfl,rfl,n,text,raw,outputs,htext,hraw,hid,houtputs,by rw [← hyours]; exact hout⟩

/-- What holds of the loop's variables: the total is that of the inputs, which are backed, and the fee
is that of their number. -/
structure Gathered.Sound (dsha : List UInt8 → Hash) (server : Server) (p : Payment) (outputs : ℕ) (g : Gathered) :
    Prop where
  total : g.total = (g.inputs.map (·.value)).sum
  backed : ∀ i∈g.inputs, Backed dsha server p.fromScript i
  fee_le : g.fee ≤ p.feeFor g.inputs.length outputs

theorem Payment.feeFor_mono {m n outputs : ℕ} (h : m≤n) : p.feeFor m outputs ≤ p.feeFor n outputs := by
  unfold feeFor paymentSize
  gcongr

theorem Gathered.Sound.add {outputs : ℕ} {g : Gathered} (hg : g.Sound dsha server p outputs)
    (hi : Backed dsha server p.fromScript i) : (p.add outputs g i).Sound dsha server p outputs := by
  refine ⟨?_,fun j hj => ?_, ?_⟩
  · simp [Payment.add,hg.total]
  · rcases mem_append.mp hj with hj | hj
    · exact hg.backed j hj
    · rw [mem_singleton.mp hj]
      exact hi
  · simp [Payment.add]

/-- What an entry is worth by the transaction that the server sends for it, in the `n`th request. -/
def worth (dsha : List UInt8 → Hash) (server : Server) (p : Payment) (n : ℕ) (u : Listed) : ℕ :=
  ((verifiedInput dsha u (server.getRawTx n u.txid) p.fromScript).toOption.map (·.value)).getD 0

/-- What entries are worth together, from the `n`th request on. -/
def worths (dsha : List UInt8 → Hash) (server : Server) (p : Payment) (n : ℕ) (l : List Listed) : ℕ :=
  ((l.zipIdx n).map fun e => worth dsha server p e.2 e.1).sum

/-- The loop has taken the first `k` entries, and fewer did not cover the payment. -/
structure Front (dsha : List UInt8 → Hash) (server : Server) (p : Payment) (outputs : ℕ) (g : Gathered)
    (l : List Listed) (g' : Gathered) (k : ℕ) : Prop where
  points : g'.inputs.map point = g.inputs.map point++(l.take k).map Listed.point
  length : g'.inputs.length = g.inputs.length+k
  total : g'.total = g.total+worths dsha server p g.inputs.length (l.take k)
  short : ∀ j, 0 < j → j < k → g.total+worths dsha server p g.inputs.length (l.take j) <
    p.amount+p.feeFor (g.inputs.length+j) outputs

/-- What the loop returns: coins from the front of the list, sound, and where they cover the payment, by
less than the last of them. -/
structure Gathers (dsha : List UInt8 → Hash) (server : Server) (p : Payment) (outputs : ℕ) (g : Gathered)
    (l : List Listed) (g' : Gathered) : Prop where
  sound : g'.Sound dsha server p outputs
  front : ∃ k, Front dsha server p outputs g l g' k
  fee : p.amount+g'.fee ≤ g'.total → g'.fee = p.feeFor g'.inputs.length outputs
  excess : p.amount+g'.fee ≤ g'.total → ∃ i∈g'.inputs, g'.total < p.amount+g'.fee+i.value

theorem gather_ok {outputs : ℕ} {l : List Listed} {g g' : Gathered} (hg : g.Sound dsha server p outputs)
    (hshort : g.total<p.amount+g.fee) (h : p.gather dsha server.getRawTx outputs g l = .ok g') :
    Gathers dsha server p outputs g l g' := by
  induction l generalizing g with
  | nil =>
    cases h
    refine ⟨hg,⟨0,by simp, by simp, by simp [worths], nofun⟩,fun hle => ?_, fun hle => ?_⟩
    · omega
    · omega
  | cons u l ih =>
    simp only [gather,bind_eq_ok] at h
    obtain ⟨i,hi,h⟩ := h
    obtain ⟨hid,hvout,hbacked⟩ := verifiedInput_ok hi
    have hsound := hg.add hbacked
    have hworth : worth dsha server p g.inputs.length u = i.value := by rw [worth,hi]; rfl
    have hworths : ∀ l : List Listed, g.total+worths dsha server p g.inputs.length (u::l) =
        (p.add outputs g i).total+worths dsha server p (p.add outputs g i).inputs.length l := fun l => by
      simp only [worths,zipIdx_cons,map_cons,sum_cons,hworth,add,length_append,length_singleton]
      omega
    split at h
    · next hcovers =>
      cases h
      refine ⟨hsound,⟨1,by simp [add,point,Listed.point,hid,hvout], by simp [add], ?_, fun j hj hlt => by omega⟩,
        fun _ => by simp [add], fun _ => ⟨i,by simp [add], ?_⟩⟩
      · rw [take_succ_cons,hworths]
        simp [worths]
      -- the fee of one more coin is not lower
      have hfee : g.fee ≤ p.feeFor (g.inputs.length+1) outputs := hg.fee_le.trans (feeFor_mono (Nat.le_succ _))
      simp only [add]
      omega
    · next hcovers =>
      obtain ⟨hs,⟨k,hk⟩,hfee,hexcess⟩ := ih hsound (by omega) h
      have hlen : (p.add outputs g i).inputs.length = g.inputs.length+1 := by simp [add]
      refine ⟨hs,⟨k+1,?_,?_,?_,fun j hj hlt => ?_⟩,hfee,hexcess⟩
      · rw [hk.points]
        simp [add,point,Listed.point,hid,hvout]
      · rw [hk.length,hlen]
        omega
      · rw [take_succ_cons,hworths,hk.total]
      · obtain ⟨j,rfl⟩ := Nat.exists_eq_add_one.mpr hj
        rw [take_succ_cons,hworths]
        rcases Nat.eq_zero_or_pos j with rfl | hj
        · simp only [add,take_zero,worths,zipIdx_nil,map_nil,sum_nil,Nat.zero_add] at hcovers ⊢
          omega
        · have := hk.short j hj (by omega)
          rw [hlen] at this ⊢
          rwa [show g.inputs.length+(j+1) = g.inputs.length+1+j by omega]

/-! ## The plan -/

theorem Payment.spendable_ok {utxos listed : List Listed} (h : p.spendable utxos = .ok listed) :
    listed = utxos.filter fun u => u.confirmed && u.script = hexEncode p.fromScript := by
  have hall : List.Forall₂ (· = ·) (utxos.filter fun u => u.confirmed && u.script = hexEncode p.fromScript) listed := by
    refine (forall₂_of_mapM_ok h).imp fun u v hu => ?_
    simp only [checks_ok] at hu
    obtain ⟨-,-,huv⟩ := hu
    exact huv
  exact (forall₂_eq_eq_eq ▸ hall : _ = listed).symm

theorem length_of_pushData {data push : List UInt8} (h : pushData data = .ok push) : push.length ≤ 0x101 := by
  unfold pushData at h
  split_ifs at h <;> cases h <;> simp <;> omega

def Payment.outputCount (p : Payment) : ℕ := if p.data = none then 1 else 2

theorem Payment.outputs_ok {base : List Output} (h : p.outputs = .ok base) :
    base.length = p.outputCount ∧ (base.map (·.value)).sum = p.amount ∧
      ∀ o∈base, o = ⟨p.amount,p.script⟩ ∨ o.value = 0 ∧ o.script.length ≤ 0x200 := by
  unfold outputs at h
  unfold outputCount
  split at h
  · next hdata =>
    cases h
    simp [hdata]
  · next hdata =>
    simp only [opReturn,checks_ok] at h
    obtain ⟨_,⟨push,hpush,rfl⟩,rfl⟩ := h
    have hlen := length_of_pushData hpush
    refine ⟨by simp [hdata], by simp, ?_⟩
    simp
    omega

/-- The entries a payment may be made from, in the order they are tried. -/
def Payment.order (p : Payment) (sort : List Listed → List Listed) (server : Server) : List Listed :=
  sort (server.utxos.filter fun u => u.confirmed && u.script = hexEncode p.fromScript)

/-- The first `k` entries are worth the payment and its fee. -/
def Payment.Covers (p : Payment) (dsha : List UInt8 → Hash) (sort : List Listed → List Listed) (server : Server)
    (k : ℕ) : Prop :=
  p.amount+p.feeFor k p.outputCount ≤ worths dsha server p 0 ((p.order sort server).take k)

structure Planned (dsha : List UInt8 → Hash) (sort : List Listed → List Listed) (server : Server) (p : Payment)
    (plan : Plan) (g : Gathered) (unsigned : List UInt8) : Prop where
  backed : ∀ i∈g.inputs, Backed dsha server p.fromScript i
  total : g.total = (g.inputs.map (·.value)).sum
  front : ∃ k > 0, g.inputs.map point = ((p.order sort server).take k).map Listed.point ∧
    p.Covers dsha sort server k ∧ ∀ j, 0 < j → j < k → ¬ p.Covers dsha sort server j
  inputs : plan.tx.inputs = g.inputs.map fun i => ⟨i.txid,i.vout,[]⟩
  balance : (plan.tx.outputs.map (·.value)).sum+plan.fee = g.total
  outputs_length : plan.tx.outputs.length ≤ 3
  outputs : ∀ o∈plan.tx.outputs, o = ⟨p.amount,p.script⟩ ∨ o.value = 0 ∧ o.script.length ≤ 0x200 ∨
    o.script = p.fromScript ∧ ∃ i∈g.inputs, o.value < i.value
  fee_le : plan.fee ≤ maxFee
  size_le : 149*g.inputs.length*p.feePerByte ≤ plan.fee
  serialized : serialize plan.tx = .ok unsigned
  unsignedHex : plan.unsignedHex = hexEncode unsigned

theorem planPayment_ok
    (h : p.planPayment dsha sort server = .ok plan) : ∃ g unsigned, Planned dsha sort server p plan g unsigned := by
  simp only [planPayment,checks_ok,decide_eq_true_eq] at h
  obtain ⟨hsmallest,listed,hlisted,base,hbase,g,hgather,hcovers,hfee,raw,hraw,rfl⟩ := h
  obtain ⟨hlen,hsum,hbaseOut⟩ := outputs_ok hbase
  have hle : base.length ≤ 2 := hlen ▸ (by unfold outputCount; split <;> decide)
  have hpos : 0 < p.amount := lt_of_lt_of_le (by decide) hsmallest
  obtain ⟨hsound,⟨k,hfront⟩,hgfee,hexcess⟩ := gather_ok ⟨rfl,by simp, Nat.zero_le _⟩ (by simpa using hpos) hgather
  obtain ⟨i,hi,hlt⟩ := hexcess hcovers
  have hsize : 149*g.inputs.length*p.feePerByte ≤ g.fee := by
    have hle : 149*g.inputs.length ≤ paymentSize g.inputs.length base.length p.data := by
      unfold paymentSize
      omega
    rw [hgfee hcovers,feeFor]
    exact le_trans (Nat.mul_le_mul_right _ hle) (Nat.le_add_right _ _)
  refine ⟨g,raw,?_⟩
  have hfront : ∃ k > 0, g.inputs.map point = ((p.order sort server).take k).map Listed.point ∧
      p.Covers dsha sort server k ∧ ∀ j, 0 < j → j < k → ¬ p.Covers dsha sort server j := by
    rw [spendable_ok hlisted,hlen] at hfront
    have htotal := hfront.total
    have hnumber := hfront.length
    have hcount := hgfee hcovers
    simp only [length_nil,Nat.zero_add] at htotal hnumber
    rw [hnumber,hlen] at hcount
    have hk : p.Covers dsha sort server k := by
      rw [Covers,order,← htotal,← hcount]
      exact hcovers
    refine ⟨k,Nat.pos_of_ne_zero fun hzero => ?_, hfront.points, hk, fun j hj hlt => ?_⟩
    · simp only [hzero,Covers,take_zero,worths,zipIdx_nil,map_nil,sum_nil] at hk
      omega
    · have hshort := hfront.short j hj hlt
      simp only [length_nil,Nat.zero_add] at hshort
      exact hshort.not_ge
  by_cases hchange : softDust ≤ g.total-p.amount-g.fee
  · simp only [if_pos hchange] at hfee hraw ⊢
    refine ⟨hsound.backed,hsound.total,hfront,rfl,?_,?_,?_,hfee,hsize,hraw,rfl⟩
    · simp only [map_append,sum_append,hsum,map_cons,map_nil,sum_cons,sum_nil]
      omega
    · simp only [length_append,length_singleton]
      omega
    · intro o ho
      rcases mem_append.mp ho with ho | ho
      · exact (hbaseOut o ho).imp_right .inl
      · rw [mem_singleton.mp ho]
        exact .inr (.inr ⟨rfl,i,hi,by simp only; omega⟩)
  · simp only [if_neg hchange] at hfee hraw ⊢
    refine ⟨hsound.backed,hsound.total,hfront,rfl,?_,?_,?_,hfee,hsize.trans (Nat.le_add_right ..),hraw,rfl⟩
    · simp only [hsum]
      omega
    · simp only
      omega
    · intro o ho
      exact (hbaseOut o ho).imp_right .inl

/-! ## What is signed -/

theorem signPlan_ok {key : Key} {fromScript : List UInt8} {signed : Signed}
    (h : signPlan dsha key fromScript plan = .ok signed) :
    ∃ inputs raw unsigned reviewed, inputs.map Input.point = plan.tx.inputs.map Input.point ∧
      (∀ i∈inputs, i.script.length < 2^32) ∧
      serialize { plan.tx with inputs := inputs } = .ok raw ∧ hexDecode plan.unsignedHex = some unsigned ∧
      parseOutputs raw = .ok reviewed ∧ parseOutputs unsigned = .ok reviewed ∧
      signed = ⟨hexEncode raw,txid dsha raw,plan.fee⟩ := by
  simp only [signPlan,checks_ok,decide_eq_true_eq] at h
  obtain ⟨inputs,hinputs,raw,hraw,outs,houts,unsigned,hunsigned,reviewed,hreviewed,rfl,rfl⟩ := h
  have hsigned : ∀ q i, signInput dsha key fromScript plan.tx q = .ok i →
      i.point = q.1.point ∧ i.script.length < 2^32 := by
    intro q i hi
    simp only [signInput,checks_ok] at hi
    obtain ⟨_,-,sig,hsig,pub,hpub,rfl⟩ := hi
    have hs := length_of_pushData hsig
    have hp := length_of_pushData hpub
    refine ⟨rfl,?_⟩
    simp only [length_append]
    omega
  refine ⟨inputs,raw,unsigned,outs,?_,fun i hi => ?_, hraw, hunsigned, houts, hreviewed, rfl⟩
  · have hpoints : ∀ (qs : List (Input × ℕ)) (is : List Input),
        List.Forall₂ (fun q i => signInput dsha key fromScript plan.tx q = .ok i) qs is →
        is.map Input.point = (qs.map Prod.fst).map Input.point := by
      intro qs is hall
      induction hall with
      | nil => rfl
      | cons h _ ih => rw [map_cons,map_cons,map_cons,ih,(hsigned _ _ h).1]
    rw [hpoints _ _ (forall₂_of_mapM_ok hinputs),zipIdx_map_fst]
  · obtain ⟨q,-,hq⟩ := exists_of_mem_mapM hinputs i hi
    exact (hsigned q i hq).2

/-! ## What a chain has at an input -/

/-- The output of a transaction of the network that an input names. -/
def Spends (dsha : List UInt8 → Hash) (network : List MsgTx) (i : Input) (out : TxOut) : Prop :=
  ∃ m∈network, txid dsha m.bytesNoWitness = i.txid ∧ m.txOut[i.vout]? = some out

/-- No answer of the server collides with a transaction of the network. -/
def CollisionFree (dsha : List UInt8 → Hash) (server : Server) (network : List MsgTx) : Prop :=
  ∀ n id text raw, server.getRawTx n id = some text → hexDecode text = some raw → ∀ m∈network,
    dsha raw = dsha m.bytesNoWitness → raw = m.bytesNoWitness

theorem txid_inj {a b : List UInt8} (h : txid dsha a=txid dsha b) : dsha a = dsha b := by
  have hbytes := congrArg ofBytes (reverse_injective (hexEncode_injective h))
  rw [ofBytes_toBytes,ofBytes_toBytes,show 256^32 = 2^256 by norm_num, Nat.mod_eq_of_lt (dsha a).isLt,
    Nat.mod_eq_of_lt (dsha b).isLt] at hbytes
  exact BitVec.eq_of_toNat_eq hbytes

/-- A transaction of the network with the identifier of a backed input has the output it was checked for. -/
theorem Backed.output (hfree : CollisionFree dsha server network)
    (h : Backed dsha server p.fromScript i) {m : MsgTx} (hm : m∈network) (hchain : OnChain m)
    (hid : txid dsha m.bytesNoWitness=i.txid) : ∃ out, m.txOut[i.vout]? = some out ∧
      seen out = ⟨i.value,p.fromScript⟩ := by
  obtain ⟨n,text,raw,outputs,htext,hraw,hrawid,hparse,hout⟩ := h.raw
  obtain rfl := hfree n _ text raw htext hraw m hm (txid_inj (hrawid.trans hid.symm))
  rw [hchain.parseOutputs] at hparse
  cases hparse
  rw [List.getElem?_map] at hout
  exact Option.map_eq_some_iff.mp hout

theorem toNat_seen_value {out : TxOut} (h : 0≤out.value.toInt) : ((seen out).value : ℤ) = out.value.toInt := by
  change 0 ≤ out.value.toBitVec.toInt at h
  change (out.value.toBitVec.toNat : ℤ) = out.value.toBitVec.toInt
  rw [BitVec.toInt_eq_toNat_cond] at h ⊢
  split_ifs at h ⊢ <;> omega

theorem Backed.value (hnetwork : ∀ m∈network, OnChain m)
    (hfree : CollisionFree dsha server network) {v : Verified} (h : Backed dsha server p.fromScript v) {i : Input}
    (hpoint : i.point=v.point) {out : TxOut} (hout : Spends dsha network i out) :
    out.value.toInt = v.value ∧ (v.value : ℤ) ≤ 10^18 := by
  obtain ⟨m,hm,hid,hi⟩ := hout
  obtain ⟨htxid,hvout⟩ := Prod.mk.inj hpoint
  obtain ⟨out',hv,hseen⟩ := h.output hfree hm (hnetwork m hm) (hid.trans htxid)
  rw [← hvout,hi,Option.some.injEq] at hv
  subst hv
  obtain ⟨hlo,hhi⟩ := (hnetwork m hm).values out (mem_of_getElem? hi)
  have hvalue := toNat_seen_value hlo
  rw [hseen] at hvalue
  simp only at hvalue
  omega

/-- The true values of the inputs, one by one, are those that were checked. -/
theorem values_of_spends {is : List Input} {vs : List Verified} {outs : List TxOut}
    (hvalue : ∀ v∈vs, ∀ i out, i.point = v.point → Spends dsha network i out →
      out.value.toInt = v.value ∧ (v.value : ℤ) ≤ 10^18)
    (hall : List.Forall₂ (Spends dsha network) is outs) (hpoints : is.map Input.point=vs.map point) :
    (outs.map fun out => out.value.toInt).sum = ((vs.map (·.value)).sum : ℕ) ∧ ∀ v∈vs, (v.value : ℤ) ≤ 10^18 := by
  induction hall generalizing vs with
  | nil =>
    obtain rfl : vs = [] := by simpa using hpoints.symm
    exact ⟨rfl,by simp⟩
  | @cons i out is outs hout _ ih =>
    cases vs with
    | nil => simp at hpoints
    | cons v vs =>
      rw [map_cons,map_cons,List.cons.injEq] at hpoints
      obtain ⟨hsum,hle⟩ := ih (fun w hw => hvalue w (mem_cons_of_mem _ hw)) hpoints.2
      obtain ⟨hfirst,hle'⟩ := hvalue v (mem_cons_self ..) i out hpoints.1 hout
      refine ⟨?_,forall_mem_cons.mpr ⟨hle',hle⟩⟩
      simp only [map_cons,sum_cons,Nat.cast_add]
      omega

structure Payment.Fits (p : Payment) : Prop where
  amount : p.amount < 2^64
  script : p.script.length < 2^32
  fromScript : p.fromScript.length < 2^32
  feePerByte : 0 < p.feePerByte

/-- As far as the entries do not yet cover the payment, and with the next one, none is named twice. -/
def Payment.NoneTwice (p : Payment) (dsha : List UInt8 → Hash) (sort : List Listed → List Listed) (server : Server) :
    Prop :=
  ∀ k, (∀ j, 0 < j → j < k → ¬ p.Covers dsha sort server j) → (((p.order sort server).take k).map Listed.point).Nodup

theorem Planned.nodup_iff {g : Gathered} {unsigned : List UInt8}
    (h : Planned dsha sort server p plan g unsigned) : (g.inputs.map point).Nodup ↔ p.NoneTwice dsha sort server := by
  obtain ⟨k,hpos,hk,hcovers,hshort⟩ := h.front
  rw [hk]
  refine ⟨fun hnodup m hm => ?_, fun htwice => htwice k hshort⟩
  have hle : m ≤ k := not_lt.mp fun hlt => hm k hpos hlt hcovers
  exact hnodup.sublist ((take_sublist_take_left hle).map _)

theorem Backed.isTxid (h : Backed dsha server p.fromScript i) : IsTxid i.txid := by
  obtain ⟨_,_,raw,_,_,_,hid,_⟩ := h.raw
  exact ⟨(toBytes 32 (dsha raw).toNat).reverse,by simp, hid.symm⟩

theorem Planned.parseOutputs (hp : p.Fits) {g : Gathered}
    {unsigned : List UInt8} (h : Planned dsha sort server p plan g unsigned)
    (hvalues : ∀ v∈g.inputs, (v.value : ℤ) ≤ 10^18) {inputs : List Input} {raw : List UInt8}
    (hpoints : inputs.map Input.point=g.inputs.map point) (hscripts : ∀ i∈inputs, i.script.length < 2^32)
    (hraw : serialize { plan.tx with inputs := inputs } = .ok raw) : parseOutputs raw = .ok plan.tx.outputs := by
  have hlen : inputs.length = g.inputs.length := by simpa using congrArg List.length hpoints
  have hread : inputs.length < 2^32 → (∀ i∈inputs, IsTxid i.txid ∧ i.script.length < 2^32) →
      plan.tx.outputs.length < 2^32 → (∀ o∈plan.tx.outputs, o.value < 2^64 ∧ o.script.length < 2^32) →
      Web.parseOutputs raw = .ok plan.tx.outputs := parseOutputs_serialize hraw
  refine hread ?_ (fun i hi => ⟨?_,hscripts i hi⟩) ?_ (fun o ho => ?_)
  · have hone : 149*g.inputs.length*1 ≤ 149*g.inputs.length*p.feePerByte := Nat.mul_le_mul_left _ hp.feePerByte
    have hsize := h.size_le
    have hfee := h.fee_le
    have hmax : maxFee = 500000000 := rfl
    omega
  · obtain ⟨v,hv,hpoint⟩ := mem_map.mp (hpoints ▸ mem_map_of_mem hi : i.point∈g.inputs.map point)
    exact (Prod.mk.inj hpoint).1 ▸ (h.backed v hv).isTxid
  · have := h.outputs_length
    omega
  · have hamount := hp.amount
    rcases h.outputs o ho with rfl | ⟨hzero,hscript⟩ | ⟨hscript,v,hv,hlt⟩
    · exact ⟨hamount,hp.script⟩
    · exact ⟨by omega, by omega⟩
    · have hv := hvalues v hv
      exact ⟨by omega, hscript ▸ hp.fromScript⟩

/-- Whatever a server lists and answers, what the page signs pays the outputs that were reviewed from
outputs of the key, the rest of what the inputs hold on the chain is the fee that was shown, which is at
most the page's limit, and no output is spent twice exactly if the entries needed to cover the payment
name none twice. -/
theorem signed_payment_is_reviewed_iff (sort : List Listed → List Listed) (hp : p.Fits) (key : Key) (plan : Plan)
    (signed : Signed)
    (hplan : p.planPayment dsha sort server = .ok plan) (hsign : signPlan dsha key p.fromScript plan = .ok signed)
    (network : List MsgTx) (hnetwork : ∀ m∈network, OnChain m) (hfree : CollisionFree dsha server network) :
    ∃ inputs raw unsigned reviewed, signed.hex = hexEncode raw ∧ plan.unsignedHex = hexEncode unsigned ∧
      serialize { plan.tx with inputs := inputs } = .ok raw ∧ parseOutputs raw = .ok reviewed ∧
      parseOutputs unsigned = .ok reviewed ∧ inputs.map Input.point = plan.tx.inputs.map Input.point ∧
      ((inputs.map Input.point).Nodup ↔ p.NoneTwice dsha sort server) ∧
      (∀ i∈inputs, ∀ m∈network, txid dsha m.bytesNoWitness = i.txid →
        ∃ out, m.txOut[i.vout]? = some out ∧ out.pkScript = p.fromScript) ∧
      (∀ outs, List.Forall₂ (Spends dsha network) inputs outs →
        (outs.map fun out => out.value.toInt).sum-((reviewed.map (·.value)).sum : ℕ) = signed.fee) ∧
      signed.fee = plan.fee ∧ signed.fee ≤ maxFee := by
  obtain ⟨g,bytes,hplanned⟩ := planPayment_ok hplan
  obtain ⟨inputs,raw,unsigned,reviewed,hpoints,hscripts,hraw,hunsigned,hparse,hparse',rfl⟩ := signPlan_ok hsign
  rw [hplanned.unsignedHex,hexDecode_hexEncode,Option.some.injEq] at hunsigned
  subst hunsigned
  have hpoints' : inputs.map Input.point = g.inputs.map point := by
    rw [hpoints,hplanned.inputs,map_map]
    rfl
  have hbacked : ∀ i∈inputs, ∃ v∈g.inputs, v.point = i.point := fun i hi =>
    mem_map.mp (hpoints' ▸ mem_map_of_mem hi : i.point∈g.inputs.map point)
  refine ⟨inputs,raw,bytes,reviewed,rfl,hplanned.unsignedHex,hraw,hparse,hparse',hpoints,?_,?_,?_,
    rfl,hplanned.fee_le⟩
  · rw [hpoints']
    exact hplanned.nodup_iff
  · intro i hi m hm hid
    obtain ⟨v,hv,hpoint⟩ := hbacked i hi
    obtain ⟨htxid,hvout⟩ := Prod.mk.inj hpoint
    obtain ⟨out,hout,hseen⟩ := (hplanned.backed v hv).output hfree hm (hnetwork m hm) (hid.trans htxid.symm)
    exact ⟨out,hvout ▸ hout,congrArg Output.script hseen⟩
  · intro outs hall
    obtain ⟨hsum,hvalues⟩ := values_of_spends (fun v hv i out hpoint hspends =>
      (hplanned.backed v hv).value hnetwork hfree hpoint hspends) hall hpoints'
    have hout := hplanned.parseOutputs hp hvalues hpoints' hscripts hraw
    rw [hout,Except.ok.injEq] at hparse
    subst hparse
    rw [hsum,← hplanned.total,← hplanned.balance]
    simp

end

section Sample

def sampleSha (bytes : List UInt8) : Hash := BitVec.ofNat 256 (digest (bytes.map UInt8.toNat))

def sampleKey : Key := ⟨fun _ => List.replicate 70 1, List.replicate 33 2⟩

def samplePayment (amount : ℕ) : Payment :=
  ⟨Destination.pkScript ⟨.p2pkh,7⟩,Destination.pkScript ⟨.p2pkh,8⟩,amount,none,100⟩

/-- A coin of one DOGE of the key. -/
def sampleFunding : MsgTx where
  version := 1
  txIn := [⟨⟨5,0⟩,[],[],0xffffffff⟩]
  txOut := [⟨100000000,Destination.pkScript ⟨.p2pkh,7⟩⟩]
  lockTime := 0
  outputs_le := by decide

def sampleEntry : Listed :=
  ⟨txid sampleSha sampleFunding.bytesNoWitness,0,some 100000000,hexEncode (Destination.pkScript ⟨.p2pkh,7⟩),true⟩

/-- A server that lists the coin so many times, and sends its transaction. -/
def sampleServer (n : ℕ) : Server :=
  ⟨List.replicate n sampleEntry,fun _ _ => some (hexEncode sampleFunding.bytesNoWitness)⟩

theorem exists_signed (amount : ℕ) (points : List (List Char × ℕ)) (h : ((samplePayment amount).planPayment sampleSha
      id (sampleServer 2)).toOption.any (fun plan => plan.tx.inputs.map Input.point = points &&
        (signPlan sampleSha sampleKey (samplePayment amount).fromScript plan).isOk) = true) :
    ∃ plan signed, (samplePayment amount).planPayment sampleSha id (sampleServer 2) = .ok plan ∧
      signPlan sampleSha sampleKey (samplePayment amount).fromScript plan = .ok signed ∧
      plan.tx.inputs.map Input.point = points := by
  obtain ⟨plan,hplan,hcheck⟩ := exists_ok_of_any h
  simp only [Bool.and_eq_true,decide_eq_true_eq] at hcheck
  obtain ⟨signed,hsigned⟩ := exists_of_isOk hcheck.2
  exact ⟨plan,signed,hplan,hsigned,hcheck.1⟩

/-- A server lists the coin twice, and the payment needs it once: it is spent once, for what it holds. -/
theorem needed_once_is_reviewed :
    ∃ plan signed reviewed, (samplePayment 50000000).planPayment sampleSha id (sampleServer 2) = .ok plan ∧
      signPlan sampleSha sampleKey (samplePayment 50000000).fromScript plan = .ok signed ∧
      (hexDecode signed.hex).map parseOutputs = some (.ok reviewed) ∧ (plan.tx.inputs.map Input.point).Nodup ∧
      (100000000 : ℤ)-((reviewed.map (·.value)).sum : ℕ) = signed.fee ∧ signed.fee ≤ maxFee := by
  obtain ⟨plan,signed,hplan,hsigned,hinputs⟩ := exists_signed 50000000 [sampleEntry.point] (by decide +kernel)
  have hfree : CollisionFree sampleSha (sampleServer 2) [sampleFunding] := by
    intro n id text raw htext hraw m hm _
    cases htext
    rw [hexDecode_hexEncode,Option.some.injEq] at hraw
    rw [mem_singleton.mp hm,← hraw]
  have hchain : ∀ m∈[sampleFunding], OnChain m := by
    intro m hm
    rw [mem_singleton.mp hm]
    exact ⟨by decide, by decide, by decide, by decide⟩
  have htwice : (samplePayment 50000000).NoneTwice sampleSha id (sampleServer 2) := by
    intro k hk
    have hone : (samplePayment 50000000).Covers sampleSha id (sampleServer 2) 1 := by
      rw [Covers]
      decide +kernel
    have hle : k ≤ 1 := not_lt.mp fun hlt => hk 1 one_pos hlt hone
    exact ((nodup_singleton sampleEntry.point).sublist (by
      rw [← map_singleton]
      exact (take_sublist_take_left hle).map _))
  obtain ⟨inputs,raw,unsigned,reviewed,hhex,-,-,hparse,-,hpoints,hnodup,-,hsum,-,hfee⟩ :=
    signed_payment_is_reviewed_iff id ⟨by decide, by decide, by decide, by decide⟩ sampleKey
      plan signed hplan hsigned [sampleFunding] hchain hfree
  refine ⟨plan,signed,reviewed,hplan,hsigned,?_,hpoints ▸ hnodup.mpr htwice,?_,hfee⟩
  · rw [hhex,hexDecode_hexEncode,Option.map_some,hparse]
  · rw [hinputs] at hpoints
    obtain ⟨i,rfl,hi⟩ := map_eq_singleton_iff.mp hpoints
    obtain ⟨htxid,hvout⟩ := Prod.mk.inj hi
    exact hsum [⟨100000000,_⟩] (.cons ⟨sampleFunding,mem_singleton_self _,htxid.symm,by rw [hvout]; rfl⟩ .nil)

/-- A server that lists the coin twice makes the page spend it twice, and show a fee for a sum it does not hold. -/
theorem listed_twice_is_spent_twice :
    ∃ plan signed, (samplePayment 150000000).planPayment sampleSha id (sampleServer 2) = .ok plan ∧
      signPlan sampleSha sampleKey (samplePayment 150000000).fromScript plan = .ok signed ∧
      ¬ (plan.tx.inputs.map Input.point).Nodup := by
  obtain ⟨plan,signed,hplan,hsigned,hinputs⟩ := exists_signed 150000000 [sampleEntry.point,sampleEntry.point]
    (by decide +kernel)
  refine ⟨plan,signed,hplan,hsigned,?_⟩
  rw [hinputs]
  simp

end Sample

end DogePeg.Web
