import DogePeg.Encoding
import DogePeg.Node.Validate

/-!
# The bytes of a block

How `btcd/wire` writes a block and reads one, with the witness data of its transactions. Reading
refuses counts and scripts that no message can hold. The scripts of one transaction are read into a
buffer of fixed size, and one that does not fit is a slice out of range.
-/

namespace DogePeg

open Bytes Checks Readers Node List Yields Parses

variable {n : ℕ} {room left : ℕ}

/-! ## Writing -/

def Node.BlockHeader.bytes (h : BlockHeader) : List UInt8 :=
  leBytes 4 h.version.toUInt32.toNat++toBytes 32 h.prevBlock.toNat++toBytes 32 h.merkleRoot.toNat ++
    leBytes 4 h.timestamp.toNat++leBytes 4 h.bits.toNat++leBytes 4 h.nonce.toNat

/-- `writeTxWitness`. -/
def witnessBytes (witness : List (List UInt8)) : List UInt8 :=
  varIntBytes witness.length++witness.flatMap fun item => varIntBytes item.length++item

/-- `MsgTx.Serialize`. -/
def MsgTx.bytes (tx : MsgTx) : List UInt8 :=
  if hasWitness tx then
    leBytes 4 tx.version.toUInt32.toNat++[0,1]++varIntBytes tx.txIn.length++tx.txIn.flatMap TxIn.bytes ++
      varIntBytes tx.txOut.length++tx.txOut.flatMap TxOut.bytes ++
      tx.txIn.flatMap (fun i => witnessBytes i.witness)++leBytes 4 tx.lockTime.toNat
  else tx.bytesNoWitness

/-- `MsgBlock.Serialize`. -/
def Node.MsgBlock.bytes (b : MsgBlock) : List UInt8 :=
  b.header.bytes++varIntBytes b.transactions.length++b.transactions.flatMap MsgTx.bytes

/-! ## Reading -/

def maxTxPerBlock : ℕ := 4000000 / 10+1

def maxTxInPerMessage : ℕ := (1024*1024*32) / 41+1

def maxWitnessItemsPerInput : ℕ := 4000000

def maxWitnessItemSize : ℕ := 4000000

def scriptSlabSize : ℕ := 2^22

/-- The names `readScript` gives what it reads. -/
inductive ScriptField where
  | signatureScript
  | pkScript
  | witnessItem
  deriving DecidableEq

inductive WireError where
  | eof
  | nonCanonicalVarInt
  | tooManyTransactions
  | witnessFlag
  | tooManyInputs
  | tooManyOutputs
  | tooManyWitnessItems
  | scriptTooLarge (field : ScriptField)
  | superfluousWitnessRecord
  /-- The process stops. -/
  | sliceBounds
  deriving DecidableEq

/-- The number after a discriminant, which must need as many bytes. -/
def readWide (n min : ℕ) : Reader WireError ℕ := do
  let rv ← littleEndian n .eof
  demand (min ≤ rv) .nonCanonicalVarInt
  return rv

def readVarInt : Reader WireError ℕ := do
  let discriminant ← littleEndian 1 .eof
  if discriminant = 0xff then readWide 8 0x100000000
  else if discriminant = 0xfe then readWide 4 0x10000
  else if discriminant = 0xfd then readWide 2 0xfd
  else return discriminant

/-- `readScript`, with the room the buffer has and what it leaves of it. -/
def readScript (field : ScriptField) (room : ℕ) : Reader WireError (Script × ℕ) := do
  let count ← readVarInt
  demand (count ≤ maxWitnessItemSize) (.scriptTooLarge field)
  demand (count ≤ room) .sliceBounds
  let script ← takeBytes count .eof
  return (script,room-count)

def readOutPoint : Reader WireError OutPoint := do
  let hash ← takeBytes 32 .eof
  let index ← littleEndian 4 .eof
  return ⟨BitVec.ofNat 256 (ofBytes hash),UInt32.ofNat index⟩

def readTxIn (room : ℕ) : Reader WireError (TxIn × ℕ) := do
  let previousOutPoint ← readOutPoint
  let (signatureScript,room) ← readScript .signatureScript room
  let sequence ← littleEndian 4 .eof
  return (⟨previousOutPoint,signatureScript,[],UInt32.ofNat sequence⟩,room)

def readTxOut (room : ℕ) : Reader WireError (TxOut × ℕ) := do
  let value ← littleEndian 8 .eof
  let (pkScript,room) ← readScript .pkScript room
  return (⟨(UInt64.ofNat value).toInt64,pkScript⟩,room)

/-- The number of inputs, and whether the transaction has witness data: a count of zero is the
marker that says so. -/
def readInputCount : Reader WireError (Bool × ℕ) := do
  let count ← readVarInt
  if count = 0 then do
    let flag ← littleEndian 1 .eof
    demand (flag = 1) .witnessFlag
    let count ← readVarInt
    return (true,count)
  else return (false,count)

def readWitnesses : List TxIn → ℕ → Reader WireError (List TxIn)
  | [], _ => pure []
  | i::is, room => do
    let count ← readVarInt
    demand (count ≤ maxWitnessItemsPerInput) .tooManyWitnessItems
    let (witness,room) ← manyWith (readScript .witnessItem) count room
    let rest ← readWitnesses is room
    return { i with witness := witness }::rest

/-- The inputs with the witness data that the flag announces. -/
def readFlagged (flagged : Bool) (txIn : List TxIn) (room : ℕ) : Reader WireError (List TxIn) :=
  if flagged then do
    let txIn ← readWitnesses txIn room
    demand (txIn.any fun i => i.witness ≠ []) .superfluousWitnessRecord
    return txIn
  else return txIn

/-- The end of `MsgTx.btcDecode`: as many outputs were read as the count that was checked. -/
def makeTx (version : ℕ) (txIn : List TxIn) (txOut : List TxOut) (lockTime : ℕ) : Reader WireError MsgTx :=
  if h : txOut.length ≤ maxTxOutPerMessage then
    return ⟨(UInt32.ofNat version).toInt32,txIn,txOut,UInt32.ofNat lockTime,h⟩
  else throw .tooManyOutputs

/-- `MsgTx.BtcDecode`. -/
def readMsgTx : Reader WireError MsgTx := do
  let version ← littleEndian 4 .eof
  let (flagged,count) ← readInputCount
  demand (count ≤ maxTxInPerMessage) .tooManyInputs
  let (txIn,room) ← manyWith readTxIn count scriptSlabSize
  let count ← readVarInt
  demand (count ≤ maxTxOutPerMessage) .tooManyOutputs
  let (txOut,room) ← manyWith readTxOut count room
  let txIn ← readFlagged flagged txIn room
  let lockTime ← littleEndian 4 .eof
  makeTx version txIn txOut lockTime

def readBlockHeader : Reader WireError BlockHeader := do
  let version ← littleEndian 4 .eof
  let prevBlock ← takeBytes 32 .eof
  let merkleRoot ← takeBytes 32 .eof
  let timestamp ← littleEndian 4 .eof
  let bits ← littleEndian 4 .eof
  let nonce ← littleEndian 4 .eof
  return ⟨(UInt32.ofNat version).toInt32,BitVec.ofNat 256 (ofBytes prevBlock),BitVec.ofNat 256 (ofBytes merkleRoot),
    UInt32.ofNat timestamp,UInt32.ofNat bits,UInt32.ofNat nonce⟩

/-- `MsgBlock.BtcDecode`. -/
def readMsgBlock : Reader WireError MsgBlock := do
  let header ← readBlockHeader
  let txCount ← readVarInt
  demand (txCount ≤ maxTxPerBlock) .tooManyTransactions
  let transactions ← many readMsgTx txCount
  return ⟨header,transactions⟩

/-- The block in front of the bytes; what follows it is not read. -/
def decodeBlock (bytes : List UInt8) : Except WireError MsgBlock := (readMsgBlock.run bytes).map Prod.fst

/-! ## What is written reads back -/

theorem parses_wide {k min : ℕ} (hlt : n<256^k) (hmin : min≤n) : Parses (readWide k min) (leBytes k n) n := by
  have hread : Parses (readWide k min) (leBytes k n++([]++[])) n :=
    (littleEndian hlt _).bind ((demand (decide_eq_true hmin) _).bind (pure n))
  simpa using hread

theorem parses_varInt (h : n<2^64) : Parses readVarInt (varIntBytes n) n := by
  unfold varIntBytes
  split_ifs with hsmall hshort hword
  · have hn : (UInt8.ofNat n).toNat = n := by
      rw [UInt8.toNat_ofNat']
      omega
    rw [← append_nil [UInt8.ofNat n]]
    refine (byte _ _).bind ?_
    rw [hn,if_neg (by omega),if_neg (by omega),if_neg (by omega)]
    exact pure n
  · exact (byte 0xfd _).bind (parses_wide (by omega) (by omega))
  · exact (byte 0xfe _).bind (parses_wide (by omega) (by omega))
  · exact (byte 0xff _).bind (parses_wide (by omega) (by omega))

/-- A script that fits in the room there is, and the room it leaves. -/
def Fits (room : ℕ) (script : Script) (left : ℕ) : Prop :=
  script.length ≤ maxWitnessItemSize ∧ left+script.length = room

theorem parses_script {script : Script} (h : Fits room script left) (field : ScriptField) :
    Parses (readScript field room) (varIntBytes script.length++script) (script,left) := by
  obtain ⟨hsize,rfl⟩ := h
  have hcount : script.length < 2^64 := by
    unfold maxWitnessItemSize at hsize
    omega
  have hread : Parses (readScript field (left+script.length)) (varIntBytes script.length++([]++([]++script)))
      (script,left+script.length-script.length) :=
    (parses_varInt hcount).bind ((demand (decide_eq_true hsize) _).bind
      ((demand (decide_eq_true (Nat.le_add_left ..)) _).bind (takeBytes script _).map))
  simpa using hread

theorem yields_script (field : ScriptField) (room : ℕ) : Yields (readScript field room) fun p => Fits room p.1 p.2 := by
  refine (Yields.trivial readVarInt).bind fun count _ => (Yields.demand _ _).bind fun _ hsize =>
    (Yields.demand _ _).bind fun _ hroom => (Yields.takeBytes count _).bind fun script hlen => Yields.pure ⟨?_,?_⟩
  · change script.length ≤ maxWitnessItemSize
    rw [hlen]
    exact of_decide_eq_true hsize
  · have := of_decide_eq_true hroom
    simp only [hlen]
    omega

theorem ofBytes_hash (hash : Hash) : BitVec.ofNat 256 (ofBytes (toBytes 32 hash.toNat)) = hash := by
  have hlt : hash.toNat < 256^32 := lt_of_lt_of_eq hash.isLt (by norm_num)
  rw [ofBytes_toBytes,Nat.mod_eq_of_lt hlt,BitVec.ofNat_toNat,BitVec.setWidth_eq]

theorem parses_hash (hash : Hash) :
    Parses (takeBytes 32 WireError.eof) (toBytes 32 hash.toNat) (toBytes 32 hash.toNat) := by
  have h := takeBytes (toBytes 32 hash.toNat) WireError.eof
  rwa [length_toBytes] at h

theorem parses_outPoint (op : OutPoint) : Parses readOutPoint op.bytes op := by
  have hindex : op.index.toNat < 256^4 := op.index.toNat_lt
  have hread : Parses readOutPoint op.bytes
      ⟨BitVec.ofNat 256 (ofBytes (toBytes 32 op.hash.toNat)),UInt32.ofNat op.index.toNat⟩ :=
    (parses_hash op.hash).bind (littleEndian hindex _).map
  rwa [ofBytes_hash,UInt32.ofNat_toNat] at hread

def stripped (i : TxIn) : TxIn := { i with witness := [] }

theorem parses_txIn {i : TxIn} (h : Fits room i.signatureScript left) :
    Parses (readTxIn room) i.bytes (stripped i,left) := by
  have hsequence : i.sequence.toNat < 256^4 := i.sequence.toNat_lt
  have hread : Parses (readTxIn room) (i.previousOutPoint.bytes ++
      ((varIntBytes i.signatureScript.length++i.signatureScript)++leBytes 4 i.sequence.toNat))
      (⟨i.previousOutPoint,i.signatureScript,[],UInt32.ofNat i.sequence.toNat⟩,left) :=
    (parses_outPoint i.previousOutPoint).bind ((parses_script h _).bind (littleEndian hsequence _).map)
  rw [UInt32.ofNat_toNat] at hread
  simpa only [TxIn.bytes,stripped,append_assoc] using hread

theorem parses_txOut {o : TxOut} (h : Fits room o.pkScript left) : Parses (readTxOut room) o.bytes (o,left) := by
  have hvalue : o.value.toUInt64.toNat < 256^8 := o.value.toUInt64.toNat_lt
  have hread : Parses (readTxOut room) (leBytes 8 o.value.toUInt64.toNat ++
      (varIntBytes o.pkScript.length++o.pkScript))
      (⟨(UInt64.ofNat o.value.toUInt64.toNat).toInt64,o.pkScript⟩,left) :=
    (littleEndian hvalue _).bind (parses_script h _).map
  rw [UInt64.ofNat_toNat,Int64.toInt64_toUInt64] at hread
  simpa only [TxOut.bytes,append_assoc] using hread

/-- Inputs whose scripts fit one after the other. -/
def InputsFit : ℕ → List TxIn → ℕ → Prop := Rounds fun room i left => Fits room i.signatureScript left

def OutputsFit : ℕ → List TxOut → ℕ → Prop := Rounds fun room o left => Fits room o.pkScript left

theorem flatMap_stripped (l : List TxIn) : (l.map stripped).flatMap TxIn.bytes = l.flatMap TxIn.bytes := by
  rw [flatMap_map]
  rfl

theorem map_stripped (l : List TxIn) : (l.map stripped).map stripped = l.map stripped := by
  rw [map_map]
  rfl

theorem parses_txIns {l : List TxIn} (h : InputsFit room (l.map stripped) left) :
    Parses (manyWith readTxIn l.length room) (l.flatMap TxIn.bytes) (l.map stripped,left) := by
  have hread : Parses (manyWith readTxIn (l.map stripped).length room) ((l.map stripped).flatMap TxIn.bytes)
      ((l.map stripped).map stripped,left) := manyWith (fun _ _ _ hfit => parses_txIn hfit) h
  rwa [flatMap_stripped,map_stripped,length_map] at hread

theorem parses_txOuts {l : List TxOut} (h : OutputsFit room l left) :
    Parses (manyWith readTxOut l.length room) (l.flatMap TxOut.bytes) (l,left) := by
  have hread : Parses (manyWith readTxOut l.length room) (l.flatMap TxOut.bytes) (l.map id,left) :=
    manyWith (fun _ _ _ hfit => parses_txOut hfit) h
  rwa [map_id] at hread

/-- What reading has checked of a transaction: the number of inputs, and that its scripts fit in the
buffer. -/
structure Readable (tx : MsgTx) : Prop where
  inputs : tx.txIn.length ≤ maxTxInPerMessage
  scripts : ∃ room left, InputsFit scriptSlabSize (tx.txIn.map stripped) room ∧ OutputsFit room tx.txOut left

theorem parses_inputCount (hpos : n≠0) (h : n<2^64) : Parses readInputCount (varIntBytes n) (false,n) := by
  rw [← append_nil (varIntBytes n)]
  refine (parses_varInt h).bind ?_
  rw [if_neg hpos]
  exact pure _

theorem parses_makeTx (tx : MsgTx) : Parses (makeTx tx.version.toUInt32.toNat (tx.txIn.map stripped) tx.txOut
    tx.lockTime.toNat) [] tx.stripWitness := by
  intro rest
  rw [makeTx,dif_pos tx.outputs_le,UInt32.ofNat_toNat,UInt32.ofNat_toNat,Int32.toInt32_toUInt32]
  rfl

theorem Readable.parses {tx : MsgTx} (h : Readable tx) (hne : tx.txIn≠[]) :
    Parses readMsgTx tx.bytesNoWitness tx.stripWitness := by
  obtain ⟨hinputs,room,left,hin,hout⟩ := h
  have hpos : tx.txIn.length ≠ 0 := fun h0 => hne (length_eq_zero_iff.mp h0)
  have hinLt : tx.txIn.length < 2^64 := by
    unfold maxTxInPerMessage at hinputs
    omega
  have houtLt : tx.txOut.length < 2^64 := by
    have hle := tx.outputs_le
    unfold maxTxOutPerMessage at hle
    omega
  have hversion : tx.version.toUInt32.toNat < 256^4 := tx.version.toUInt32.toNat_lt
  have hlock : tx.lockTime.toNat < 256^4 := tx.lockTime.toNat_lt
  have hread : Parses readMsgTx (leBytes 4 tx.version.toUInt32.toNat++(varIntBytes tx.txIn.length++([] ++
      (tx.txIn.flatMap TxIn.bytes++(varIntBytes tx.txOut.length++([]++(tx.txOut.flatMap TxOut.bytes++([] ++
        (leBytes 4 tx.lockTime.toNat++[]))))))))) tx.stripWitness :=
    (littleEndian hversion _).bind ((parses_inputCount hpos hinLt).bind
      ((demand (decide_eq_true hinputs) _).bind ((parses_txIns hin).bind ((parses_varInt houtLt).bind
        ((Parses.demand (decide_eq_true tx.outputs_le) _).bind ((parses_txOuts hout).bind ((Parses.pure _).bind
          ((littleEndian hlock _).bind (parses_makeTx tx)))))))))
  simpa only [MsgTx.bytesNoWitness,append_assoc,nil_append,append_nil] using hread

theorem yields_txIn (room : ℕ) : Yields (readTxIn room) fun p => Fits room p.1.signatureScript p.2 :=
  (trivial readOutPoint).bind fun _ _ => (yields_script _ room).bind fun _ hfit =>
    (trivial _).bind fun _ _ => pure hfit

theorem yields_txOut (room : ℕ) : Yields (readTxOut room) fun p => Fits room p.1.pkScript p.2 :=
  (trivial _).bind fun _ _ => (yields_script _ room).bind fun _ hfit => pure hfit

theorem InputsFit.stripped {l : List TxIn} (h : InputsFit room l left) : InputsFit room (l.map stripped) left := by
  induction h with
  | nil room => exact .nil room
  | cons first _ ih => exact .cons first ih

theorem yields_txIns (n room : ℕ) :
    Yields (manyWith readTxIn n room) fun p => InputsFit room (p.1.map stripped) p.2 ∧ p.1.length = n := by
  have hread : Yields (manyWith readTxIn n room) fun p => InputsFit room p.1 p.2 ∧ p.1.length = n :=
    manyWith yields_txIn n room
  exact hread.mono fun p hp => ⟨hp.1.stripped,hp.2⟩

theorem yields_txOuts (n room : ℕ) : Yields (manyWith readTxOut n room) fun p => OutputsFit room p.1 p.2 := by
  have hread : Yields (manyWith readTxOut n room) fun p => OutputsFit room p.1 p.2 ∧ p.1.length = n :=
    manyWith yields_txOut n room
  exact hread.mono fun p hp => hp.1

theorem yields_witnesses (is : List TxIn) (room : ℕ) :
    Yields (readWitnesses is room) fun l => l.map stripped = is.map stripped := by
  induction is generalizing room with
  | nil => exact pure rfl
  | cons i is ih =>
    exact (trivial _).bind fun count _ => (trivial _).bind fun _ _ => (trivial _).bind
      fun p _ => (ih p.2).bind fun l hl => pure (congrArg (stripped i::·) hl)

theorem yields_flagged (flagged : Bool) (is : List TxIn) (room : ℕ) :
    Yields (readFlagged flagged is room) fun l => l.map stripped = is.map stripped := by
  unfold readFlagged
  split_ifs
  · exact (yields_witnesses is room).bind fun l hl => (trivial _).bind fun _ _ => pure hl
  · exact pure rfl

theorem yields_makeTx (version : ℕ) (txIn : List TxIn) (txOut : List TxOut) (lockTime : ℕ) :
    Yields (makeTx version txIn txOut lockTime) fun tx => tx.txIn = txIn ∧ tx.txOut = txOut := by
  unfold makeTx
  split_ifs
  · exact pure ⟨rfl,rfl⟩
  · intro bytes a rest hrun
    cases hrun

theorem yields_msgTx : Yields readMsgTx Readable := by
  refine (Yields.trivial _).bind fun version _ => (Yields.trivial _).bind fun count _ =>
    (Yields.demand _ _).bind fun _ hinputs => (yields_txIns count.2 _).bind fun ins hins =>
    (Yields.trivial _).bind fun outCount _ => (Yields.trivial _).bind fun _ _ =>
    (yields_txOuts outCount ins.2).bind fun outs houts => (yields_flagged count.1 ins.1 outs.2).bind fun txIn hsame =>
    (Yields.trivial _).bind fun lockTime _ => (yields_makeTx version txIn outs.1 lockTime).mono ?_
  rintro tx ⟨rfl,hout⟩
  have hlen : tx.txIn.length = ins.1.length := by
    have hlen := congrArg List.length hsame
    rwa [length_map,length_map] at hlen
  refine ⟨?_,ins.2,outs.2,hsame ▸ hins.1,hout ▸ houts⟩
  rw [hlen,hins.2]
  exact of_decide_eq_true hinputs

theorem yields_msgBlock : Yields readMsgBlock fun b => ∀ tx∈b.transactions, Readable tx :=
  (trivial _).bind fun _ _ => (trivial _).bind fun txCount _ => (trivial _).bind fun _ _ =>
    (yields_msgTx.many txCount).bind fun _ htxs => pure htxs

theorem readable_of_decodeBlock {bytes : List UInt8} {b : MsgBlock} (h : decodeBlock bytes = .ok b) :
    ∀ tx∈b.transactions, Readable tx := by
  unfold decodeBlock at h
  cases hrun : readMsgBlock.run bytes with
  | error e =>
    rw [hrun] at h
    cases h
  | ok r =>
    rw [hrun] at h
    cases h
    exact yields_msgBlock bytes r.1 r.2 hrun

/-- Transactions that are read have the same bytes only where they are the same up to witness data. -/
theorem stripWitness_eq_of_bytes_eq {t u : MsgTx} (ht : Readable t) (hu : Readable u) (htne : t.txIn≠[])
    (hune : u.txIn≠[]) (h : t.bytesNoWitness=u.bytesNoWitness) : t.stripWitness = u.stripWitness := by
  have hread := ht.parses htne []
  rw [h,hu.parses hune [],Except.ok.injEq,Prod.mk.injEq] at hread
  exact hread.1.symm

end DogePeg
