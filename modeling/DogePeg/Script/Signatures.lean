import DogePeg.Lib.Checks
import DogePeg.Scripts

/-!
# Signatures and keys as scripts read them

The encodings of `btcd/btcec/ecdsa` and of the engine's own checks (`btcd/txscript/engine.go`).
The curve is a parameter (`Signing`): what is used of it is how a point is written and that it
reads back.
-/

namespace DogePeg

open Bytes Checks Option

/-! ## The rules in force -/

/-- The flags an engine runs with, of those that bear on a pay-to-script-hash input; `ScriptBip16`
itself is always set. -/
structure ScriptFlags where
  derSignatures : Bool
  strictEncoding : Bool
  lowS : Bool
  minimalData : Bool
  strictMultiSig : Bool
  nullFail : Bool
  cleanStack : Bool
  constScriptCode : Bool
  witness : Bool
  deriving DecidableEq, Repr

/-- `StandardVerifyFlags`: the mempool's. -/
def standardVerifyFlags : ScriptFlags := ⟨true,true,true,true,true,true,true,true,true⟩

/-- The errors of the engine's steps that are modelled. -/
inductive ScriptError where
  | invalidIndex
  | evalFalse
  | emptyStack
  | cleanStack
  | notPushOnly
  | scriptTooBig
  | malformedPush
  | witness
  | elementTooBig
  | tooManyOperations
  | minimalData
  | stackOverflow
  | invalidStackOperation
  | numberTooBig
  | invalidPubKeyCount
  | invalidSignatureCount
  | sigNullDummy
  | nonConstScriptCode
  | invalidSigHashType
  | sigTooShort
  | sigTooLong
  | sigInvalidSeqID
  | sigInvalidDataLen
  | sigMissingSTypeID
  | sigMissingSLen
  | sigInvalidSLen
  | sigInvalidRIntID
  | sigZeroRLen
  | sigNegativeR
  | sigTooMuchRPadding
  | sigInvalidSIntID
  | sigZeroSLen
  | sigNegativeS
  | sigTooMuchSPadding
  | sigHighS
  | pubKeyType
  | nullFail
  /-- An opcode no script of the bridge has. -/
  | unmodelled (opcode : UInt8)
  deriving DecidableEq, Repr

/-! ## Encodings -/

/-- The order of the curve's group. -/
def groupOrder : ℕ := 0xfffffffffffffffffffffffffffffffebaaedce6af48a03bbfd25e8cd0364141

def checkHashTypeEncoding (flags : ScriptFlags) (hashType : UInt8) : Except ScriptError Unit :=
  let plain := hashType &&& ~~~0x80
  ensure (!flags.strictEncoding || (1 ≤ plain && plain ≤ 3)) .invalidSigHashType

/-- `checkSignatureEncoding`, of a signature without its hash type. -/
def checkSignatureEncoding (flags : ScriptFlags) (sig : List UInt8) : Except ScriptError Unit :=
  if !flags.derSignatures && !flags.lowS && !flags.strictEncoding then .ok ()
  else do
    ensure (8 ≤ sig.length) .sigTooShort
    ensure (sig.length ≤ 72) .sigTooLong
    ensure (sig.getD 0 0 = 0x30) .sigInvalidSeqID
    ensure ((sig.getD 1 0).toNat = sig.length-2) .sigInvalidDataLen
    let rLen := (sig.getD 3 0).toNat
    let sTypeOffset := 4+rLen
    ensure (sTypeOffset < sig.length) .sigMissingSTypeID
    ensure (sTypeOffset+1 < sig.length) .sigMissingSLen
    let sOffset := sTypeOffset+2
    let sLen := (sig.getD (sTypeOffset+1) 0).toNat
    ensure (sOffset+sLen = sig.length) .sigInvalidSLen
    ensure (sig.getD 2 0 = 0x02) .sigInvalidRIntID
    ensure (rLen ≠ 0) .sigZeroRLen
    ensure (sig.getD 4 0 &&& 0x80 = 0) .sigNegativeR
    ensure (!(1 < rLen && sig.getD 4 0 = 0 && sig.getD 5 0 &&& 0x80 = 0)) .sigTooMuchRPadding
    ensure (sig.getD sTypeOffset 0 = 0x02) .sigInvalidSIntID
    ensure (sLen ≠ 0) .sigZeroSLen
    ensure (sig.getD sOffset 0 &&& 0x80 = 0) .sigNegativeS
    ensure (!(1 < sLen && sig.getD sOffset 0 = 0 && sig.getD (sOffset+1) 0 &&& 0x80 = 0)) .sigTooMuchSPadding
    ensure (!flags.lowS || ofBytes ((sig.drop sOffset).take sLen) ≤ groupOrder / 2) .sigHighS

/-- `canonicalPadding` accepts the bytes. -/
def canonicalPadding (bytes : List UInt8) : Bool :=
  bytes.getD 0 0 &&& 0x80 = 0 && !(1 < bytes.length && bytes.getD 0 0 = 0 && bytes.getD 1 0 &&& 0x80 = 0)

/-- A scalar of a signature: at most 32 bytes after its leading zeroes, within the group and not
zero. -/
def parseScalar (der : Bool) (bytes : List UInt8) : Option ℕ :=
  let stripped := bytes.dropWhile (· = 0)
  if (der → canonicalPadding bytes) ∧ stripped.length ≤ 32 ∧ ofBytes stripped < groupOrder ∧
      ofBytes stripped ≠ 0 then some (ofBytes stripped) else none

/-- `parseSig`. The length of the sequence is a byte and wraps around; what follows the sequence is
not looked at. -/
def parseSig (der : Bool) (sig : List UInt8) : Option (ℕ × ℕ) := do
  guard (8 ≤ sig.length ∧ (der → sig.length ≤ 72) ∧ sig.getD 0 0 = 0x30)
  let len := (sig.getD 1 0+2).toNat
  guard (len ≤ sig.length ∧ 8 ≤ len)
  let sig := sig.take len
  guard (sig.getD 2 0 = 0x02)
  let rLen := (sig.getD 3 0).toNat
  guard (0 < rLen ∧ rLen ≤ len-4-3)
  let r ← parseScalar der ((sig.drop 4).take rLen)
  guard (sig.getD (4+rLen) 0 = 0x02)
  let sLen := (sig.getD (5+rLen) 0).toNat
  guard (0 < sLen ∧ sLen ≤ len-(6+rLen))
  let s ← parseScalar der ((sig.drop (6+rLen)).take sLen)
  guard (6+rLen+sLen = len)
  return (r,s)

def checkPubKeyEncoding (flags : ScriptFlags) (key : List UInt8) : Except ScriptError Unit :=
  ensure (!flags.strictEncoding || (key.length = 33 && (key.head? = some 2 || key.head? = some 3)) ||
    (key.length = 65 && key.head? = some 4)) .pubKeyType

/-! ## What the strict rules imply -/

theorem parseScalar_of_der {bytes : List UInt8} {n : ℕ} (h : parseScalar true bytes=some n) :
    parseScalar false bytes = some n := by
  simp only [parseScalar] at h ⊢
  split at h
  · next hok => rwa [if_pos ⟨fun h => absurd h (by decide), hok.2⟩]
  · simp at h

theorem parseSig_of_der {sig : List UInt8} {rs : ℕ × ℕ} (h : parseSig true sig=some rs) :
    parseSig false sig = some rs := by
  simp only [parseSig,bind_eq_bind,bind_eq_some_iff,pure_def,Option.some.injEq] at h ⊢
  obtain ⟨u,hhead,_,hlen,_,hmark,_,hrLen,r,hr,_,hmark',_,hsLen,s,hs,_,hend,rfl⟩ := h
  rw [guard_eq_some'] at hhead
  refine ⟨u,(guard_eq_some' u).mpr ⟨hhead.1,fun h => absurd h (by decide), hhead.2.2⟩,?_⟩
  exact ⟨_,hlen,_,hmark,_,hrLen,r,parseScalar_of_der hr,_,hmark',_,hsLen,s,parseScalar_of_der hs,_,hend,rfl⟩

section

variable {sig : List UInt8}

theorem checkSignatureEncoding_of_standard (flags : ScriptFlags)
    (h : checkSignatureEncoding standardVerifyFlags sig = .ok ()) : checkSignatureEncoding flags sig = .ok () := by
  unfold checkSignatureEncoding at h ⊢
  rw [if_neg (by decide)] at h
  split
  · rfl
  · simp only [checks_ok] at h ⊢
    obtain ⟨h1,h2,h3,h4,h5,h6,h7,h8,h9,h10,h11,h12,h13,h14,h15,hlow⟩ := h
    refine ⟨h1,h2,h3,h4,h5,h6,h7,h8,h9,h10,h11,h12,h13,h14,h15,?_⟩
    rw [show standardVerifyFlags.lowS = true from rfl,Bool.not_true,Bool.false_or] at hlow
    rw [hlow,Bool.or_true]

/-- A signature the standard rules accept is a sequence of 8 to 72 bytes. -/
theorem length_of_checkSignatureEncoding (h : checkSignatureEncoding standardVerifyFlags sig = .ok ()) :
    8 ≤ sig.length ∧ sig.length ≤ 72 ∧ sig.head? = some 0x30 := by
  unfold checkSignatureEncoding at h
  rw [if_neg (by decide)] at h
  simp only [checks_ok,decide_eq_true_eq] at h
  obtain ⟨hmin,hmax,hhead,-⟩ := h
  refine ⟨hmin,hmax,?_⟩
  cases sig with
  | nil => simp at hmin
  | cons b rest => simpa using hhead

end

/-! ## Keys and signatures -/

def sigHashAll : UInt8 := 1

/-- The curve's keys and signatures (`dcrec/secp256k1`), the hash a signature is made over, and the
hash of a text. -/
class Signing where
  PubKey : Type
  PrivKey : Type
  decEq : DecidableEq PubKey
  parsePubKey : List UInt8 → Option PubKey
  serializeCompressed : PubKey → List UInt8
  privKeyFromBytes : List UInt8 → PrivKey
  pubKey : PrivKey → PubKey
  /-- `ecdsa.Sign`, serialized. -/
  sign : PrivKey → Hash → List UInt8
  /-- `Signature.Verify`, of the pair a signature encodes. -/
  verify : ℕ × ℕ → Hash → PubKey → Bool
  /-- `calcSignatureHash`, of a transaction without its signatures: it blanks every input's script
  and puts the given one in place of the signed input's. -/
  sigHash : Script → UInt8 → MsgTx → ℕ → Hash
  sha256 : List Char → Hash
  length_serializeCompressed : ∀ p, (serializeCompressed p).length = 33
  head_serializeCompressed : ∀ p, (serializeCompressed p).head? = some 2 ∨ (serializeCompressed p).head? = some 3
  parsePubKey_serializeCompressed : ∀ p, parsePubKey (serializeCompressed p) = some p
  /-- A signature is made as the strictest rules ask, and is its key's. -/
  sign_encoded : ∀ key h, checkSignatureEncoding standardVerifyFlags (sign key h) = .ok ()
  sign_verifies : ∀ key h, ∃ rs, parseSig true (sign key h) = some rs ∧ verify rs h (pubKey key) = true

instance instDecidableEqPubKey [Signing] : DecidableEq Signing.PubKey := Signing.decEq

def calcSignatureHash [Signing] (script : Script) (hashType : UInt8) (tx : MsgTx) (idx : ℕ) : Hash :=
  Signing.sigHash script hashType tx.unsigned idx

/-! ## Keys to evaluate the model with -/

def sampleSignature (r s : UInt8) : List UInt8 := [0x30,6,0x02,1,r,0x02,1,s]

private theorem sampleByte : ∀ n < 127, UInt8.ofNat (n+1) &&& 0x80 = 0 ∧
    ofBytes [UInt8.ofNat (n+1)] ≤ groupOrder / 2 ∧ parseScalar true [UInt8.ofNat (n+1)] = some (n+1) := by
  decide +kernel

theorem sampleSignature_encoded {r s : ℕ} (hr : r<127) (hs : s<127) :
    checkSignatureEncoding standardVerifyFlags (sampleSignature (UInt8.ofNat (r+1)) (UInt8.ofNat (s+1))) =
      .ok () := by
  obtain ⟨hrTop,-,-⟩ := sampleByte r hr
  obtain ⟨hsTop,hsLow,-⟩ := sampleByte s hs
  generalize UInt8.ofNat (r+1) = b at hrTop ⊢
  generalize UInt8.ofNat (s+1) = c at hsTop hsLow ⊢
  rw [checkSignatureEncoding,if_neg (by decide)]
  simp only [checks_ok,sampleSignature]
  simp [hrTop,hsTop,hsLow]

theorem parseSig_sampleSignature {r s : ℕ} (hr : r<127) (hs : s<127) :
    parseSig true (sampleSignature (UInt8.ofNat (r+1)) (UInt8.ofNat (s+1))) = some (r+1,s+1) := by
  obtain ⟨-,-,hr⟩ := sampleByte r hr
  obtain ⟨-,-,hs⟩ := sampleByte s hs
  generalize UInt8.ofNat (r+1) = b at hr ⊢
  generalize UInt8.ofNat (s+1) = c at hs ⊢
  simp [parseSig,sampleSignature,hr,hs]

/-- Keys that are their own points, and signatures of one byte of the key and one of the hash. -/
@[reducible] def sampleSigning : Signing where
  PubKey := BitVec 256
  PrivKey := BitVec 256
  decEq := inferInstance
  parsePubKey raw :=
    match raw with
    | 2::x => if x.length = 32 then some (BitVec.ofNat 256 (ofBytes x)) else none
    | 4::xy => if xy.length = 64 then some (BitVec.ofNat 256 (ofBytes (xy.take 32))) else none
    | _ => none
  serializeCompressed p := 2::toBytes 32 p.toNat
  privKeyFromBytes raw := BitVec.ofNat 256 (ofBytes raw)
  pubKey key := key
  sign key h := sampleSignature (UInt8.ofNat (key.toNat % 127+1)) (UInt8.ofNat (h.toNat % 127+1))
  verify rs h p := rs = (p.toNat % 127+1,h.toNat % 127+1)
  sigHash script hashType tx idx := BitVec.ofNat 256 (digest (hashType.toNat::idx ::
    (script.map UInt8.toNat++tx.txIn.flatMap TxIn.words++tx.txOut.flatMap TxOut.words)))
  sha256 text := BitVec.ofNat 256 (digest (text.map Char.toNat))
  length_serializeCompressed p := by simp
  head_serializeCompressed p := .inl rfl
  parsePubKey_serializeCompressed p := by
    have hback : BitVec.ofNat 256 (ofBytes (toBytes 32 p.toNat)) = p := by
      have hlt : p.toNat < 256^32 := p.isLt
      rw [ofBytes_toBytes,Nat.mod_eq_of_lt hlt,BitVec.ofNat_toNat,BitVec.setWidth_eq]
    simp [hback]
  sign_encoded key h := sampleSignature_encoded (Nat.mod_lt _ (by decide)) (Nat.mod_lt _ (by decide))
  sign_verifies key h :=
    ⟨_,parseSig_sampleSignature (Nat.mod_lt _ (by decide)) (Nat.mod_lt _ (by decide)),by simp⟩

end DogePeg
