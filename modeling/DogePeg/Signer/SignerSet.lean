import DogePeg.Bridge.Load
import DogePeg.Lib.Text
import DogePeg.Script.MultiSig

/-!
# Signer sets

The keys that hold the peg (`cmd/dogevm/signers.go`) and the ceremony that puts a set together
(`signer-setup assemble`, `cmd/dogevm/ceremony.go`): what a set file loads as, the redeem scripts,
and how the signatures of a transaction are put into it.
-/

namespace DogePeg

open Bytes Checks Text List Signing

/-- What `load` reads of a set file; the rest of the file is the policy and the networks. -/
structure SignerFile where
  required : ℤ
  publicKeys : List (List Char)
  privateKeys : List (List Char)
  coordinatorKey : List Char
  deriving DecidableEq

inductive SetError where
  | outOfRange (required total : ℤ)
  | random
  | publicKey (text : List Char)
  | privateKeys
  | coordinatorKey
  | required (required : ℤ) (keys : ℕ)
  | script (e : MultiSigError)
  | noCards
  | card (name : List Char)
  | sameKey (key : List Char)
  | needsCoordinatorTLS (name : List Char)
  | requiredBelowTwo
  | noCoordinatorKey
  | coordinatorIsSigner
  deriving DecidableEq

section

variable [Signing]

structure SignerSet extends SignerFile where
  redeemScript : Script
  pubKeys : List Signing.PubKey
  privKeys : List Signing.PrivKey
  coordKey : Option Signing.PubKey

/-- A key of the file: `hex.DecodeString` and `ParsePubKey`. -/
def keyOfText (text : List Char) : Option Signing.PubKey := (hexDecode text).bind parsePubKey

/-- The spelling of a key that `makeCard` and `newSignerSet` write. -/
def keyText (pub : Signing.PubKey) : List Char := hexEncode (serializeCompressed pub)

theorem keyOfText_keyText (pub : Signing.PubKey) : keyOfText (keyText pub) = some pub := by
  rw [keyOfText,keyText,hexDecode_hexEncode,Option.bind_some,parsePubKey_serializeCompressed]

def parsePrivKey (text : List Char) : Except SetError Signing.PrivKey := do
  let raw ← found (hexDecode text) .privateKeys
  ensure (raw.length = 32) .privateKeys
  return privKeyFromBytes raw

def coordKeyOfText (text : List Char) : Except SetError (Option Signing.PubKey) :=
  if text = [] then .ok none else (found (keyOfText text) .coordinatorKey).map some

def SignerFile.load (f : SignerFile) : Except SetError SignerSet := do
  let pubKeys ← f.publicKeys.mapM fun text => found (keyOfText text) (.publicKey text)
  let privKeys ← f.privateKeys.mapM parsePrivKey
  let coordKey ← coordKeyOfText f.coordinatorKey
  ensure (1 ≤ f.required && f.required ≤ pubKeys.length) (.required f.required pubKeys.length)
  let redeemScript ← (multiSigScript (pubKeys.map serializeCompressed) f.required).mapError .script
  return { f with redeemScript,pubKeys,privKeys,coordKey }

/-- `readSignerSet`, of a file whose JSON reads. -/
def readSignerSet (f : SignerFile) : Except SetError SignerSet := f.load

/-- `newSignerSet`, from what the random source answers to each read. -/
def newSignerSet (required total : ℤ) (random : ℕ → Option (BitVec 256)) : Except SetError SignerSet := do
  ensure (1 ≤ required && required ≤ total && total ≤ 15) (.outOfRange required total)
  let secrets ← (List.range total.toNat).mapM fun i =>
    (found (random i) .random).map fun secret => toBytes 32 secret.toNat
  SignerFile.load {
    required
    publicKeys := secrets.map fun secret => keyText (pubKey (privKeyFromBytes secret))
    privateKeys := secrets.map hexEncode
    coordinatorKey := [] }

/-! ## The ceremony -/

structure OperatorCard where
  name : List Char
  url : List Char
  publicKey : List Char
  tlsPin : List Char
  proof : List Char
  deriving DecidableEq

/-- The text a card's proof signs. -/
def OperatorCard.message (c : OperatorCard) : List Char :=
  if c.tlsPin = [] then
    "dogevm signer card v1\n".toList++c.name++['\n']++c.url++['\n']++c.publicKey
  else
    "dogevm signer card v2\n".toList++c.name++['\n']++c.url++['\n']++c.publicKey++['\n']++c.tlsPin

def OperatorCard.digest (c : OperatorCard) : Hash := sha256 c.message

def makeCard (name url tlsPin : List Char) (key : Signing.PrivKey) : OperatorCard :=
  let c : OperatorCard := ⟨name,url,keyText (pubKey key),tlsPin,[]⟩
  { c with proof := hexEncode (sign key c.digest) }

def OperatorCard.verify (c : OperatorCard) : Except SetError Unit := do
  let pub ← found (keyOfText c.publicKey) (.card c.name)
  let raw ← found (hexDecode c.proof) (.card c.name)
  let sig ← found (parseSig true raw) (.card c.name)
  ensure (Signing.verify sig c.digest pub) (.card c.name)

/-- The loop of `setupAssemble` over the cards: the keys taken so far, in their order. -/
def addCard (coordinatorTLS : List Char) (seen : List (List Char)) (c : OperatorCard) :
    Except SetError (List (List Char)) := do
  c.verify
  ensure (c.publicKey ∉ seen) (.sameKey c.publicKey)
  ensure (!(c.tlsPin ≠ [] && coordinatorTLS = [])) (.needsCoordinatorTLS c.name)
  return seen++[c.publicKey]

/-- `setupAssemble`, of the cards it reads and the answers to its questions. -/
def setupAssemble (required : ℤ) (coordinatorKey coordinatorTLS : List Char) (cards : List OperatorCard) :
    Except SetError SignerSet := do
  ensure (cards ≠ []) .noCards
  let publicKeys ← cards.foldlM (addCard coordinatorTLS) []
  ensure (!(required < 2 && 1 < publicKeys.length)) .requiredBelowTwo
  ensure (coordinatorKey ≠ []) .noCoordinatorKey
  let set ← SignerFile.load { required,publicKeys,privateKeys := [],coordinatorKey }
  ensure (coordinatorKey ∉ publicKeys) .coordinatorIsSigner
  return set

/-! ## What a loaded set holds -/

/-- What `load` says of a set. -/
structure Loaded (f : SignerFile) (s : SignerSet) : Prop where
  file : s.toSignerFile = f
  keys : List.Forall₂ (fun text pub => keyOfText text = some pub) f.publicKeys s.pubKeys
  coordinator : s.coordKey.toList.map some = if f.coordinatorKey = [] then [] else [keyOfText f.coordinatorKey]
  required_pos : 1 ≤ f.required
  required_le : f.required ≤ s.pubKeys.length
  script : multiSigScript (s.pubKeys.map serializeCompressed) f.required = .ok s.redeemScript

variable {f : SignerFile} {s : SignerSet}

theorem load_eq_ok (h : f.load = .ok s) : Loaded f s := by
  simp only [SignerFile.load,checks_ok] at h
  obtain ⟨pubKeys,hpub,privKeys,-,coordKey,hcoord,hrange,redeemScript,hscript,rfl⟩ := h
  rw [Bool.and_eq_true,decide_eq_true_eq,decide_eq_true_eq] at hrange
  refine ⟨rfl,?_,?_,hrange.1,hrange.2,hscript⟩
  · exact (forall₂_of_mapM_ok hpub).imp fun _ _ h => found_eq_ok.mp h
  · unfold coordKeyOfText at hcoord
    split at hcoord
    · next hnil =>
      cases hcoord
      exact (if_pos hnil).symm
    · next hnil =>
      rcases hkey : keyOfText f.coordinatorKey with _ | pub
      · simp [hkey,found,Except.map] at hcoord
      · simp only [hkey,found,Option.elim,Except.map,Except.ok.injEq] at hcoord
        rw [if_neg hnil,← hcoord]
        rfl

/-! ## Different keys -/

/-- The positions of the set that somebody with these private keys signs for (`sign`, `authorize`). -/
def SignerSet.signsFor (s : SignerSet) (held : List Signing.PrivKey) : List ℕ :=
  (List.range s.pubKeys.length).filter fun i =>
    held.any fun key => s.pubKeys[i]? = some (pubKey key)

/-- The texts of the keys in the file, the coordinator's last. -/
def SignerFile.keyTexts (f : SignerFile) : List (List Char) :=
  f.publicKeys++if f.coordinatorKey = [] then [] else [f.coordinatorKey]

/-- The keys are different points, none is the coordinator's, and the signatures required need as many
private keys. -/
structure SignerSet.Apart (s : SignerSet) : Prop where
  keys : s.pubKeys.Nodup
  coordinator : ∀ pub∈s.coordKey, pub ∉ s.pubKeys
  signers : ∀ held, s.required ≤ (s.signsFor held).length → s.required ≤ held.length

theorem setupAssemble_eq_ok {required : ℤ} {coordinatorKey coordinatorTLS : List Char} {cards : List OperatorCard}
    (h : setupAssemble required coordinatorKey coordinatorTLS cards = .ok s) :
    Loaded s.toSignerFile s ∧ s.toSignerFile.keyTexts.Nodup := by
  simp only [setupAssemble,checks_ok] at h
  obtain ⟨-,publicKeys,hcards,-,-,set,hload,hcoord,rfl⟩ := h
  have hloaded := load_eq_ok hload
  have hnodup : publicKeys.Nodup := by
    refine foldlM_keeps (P := List.Nodup) ?_ nodup_nil hcards
    intro c _ seen seen' hseen hadd
    simp only [addCard,checks_ok,decide_eq_true_eq] at hadd
    obtain ⟨-,hnew,-,rfl⟩ := hadd
    exact nodup_append.mpr ⟨hseen,nodup_singleton _,by
      intro a ha b hb
      rw [mem_singleton.mp hb]
      exact fun heq => hnew (heq ▸ ha)⟩
  rw [hloaded.file]
  refine ⟨hloaded,nodup_append.mpr ⟨hnodup,by dsimp only; split <;> simp, fun x hx y hy heq => ?_⟩⟩
  split at hy
  · cases hy
  · obtain rfl := mem_singleton.mp hy
    simp [← heq,hx] at hcoord

end

section Sample

attribute [local instance] sampleSigning

end Sample

end DogePeg
