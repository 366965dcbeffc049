import DogePeg.Signer.SignerSet

/-!
# Putting the signatures into a transaction

`signerSet.assemble` completes the signature scripts of a transaction (`cmd/dogevm/signers.go`). A set of
at most fourteen keys can spend all it holds; with fifteen, which `newSignerSet` still makes, the redeem
script of a personal deposit address is longer than a script may push.
-/

namespace DogePeg

open Bytes Checks List SignerSet Signing

variable {α : Type} {redeem : Script} {j : ℕ}

inductive AssembleError where
  | redeemScripts (redeems inputs : ℕ)
  | signatures (signers : ℕ) (required : ℤ)
  /-- The source indexes past the end of a signer's signatures. -/
  | outOfRange
  | script (e : NotCanonical)
  deriving DecidableEq, Repr

/-- The signature script of one input: an empty value for the extra pop of `CHECKMULTISIG`, the
signatures and the redeem script. -/
def signatureScript (sigs : List (List UInt8)) (redeem : Script) : Except NotCanonical Script := do
  let script ← ScriptBuilder.addOp 0 []
  let script ← sigs.foldlM (fun script sig => ScriptBuilder.addData sig script) script
  ScriptBuilder.addData redeem script

def MsgTx.withScripts (tx : MsgTx) (scripts : List Script) : MsgTx :=
  { tx with txIn := tx.txIn.zipWith (fun i script => { i with signatureScript := script }) scripts }

private theorem map_getElem?_range (l : List α) : (List.range l.length).map (fun i => l[i]?) = l.map some := by
  refine ext_getElem? fun i => ?_
  rcases Nat.lt_or_ge i l.length with h | h
  · simp [h]
  · simp [h]

private theorem sublist_of_positions {l picked : List α} {is : List ℕ}
    (hpicked : is.map (fun i => l[i]?) = picked.map some) (hsub : is <+ List.range l.length) : picked <+ l := by
  have hmap := hsub.map fun i => l[i]?
  rw [hpicked,map_getElem?_range] at hmap
  simpa using hmap.filterMap id

theorem signatureScript_eq_ok {raws : List (List UInt8)}
    (hraws : ∀ raw∈raws, 2 ≤ raw.length ∧ raw.length ≤ 73) (hcount : raws.length≤16) (h2 : 2 ≤ redeem.length)
    (h : redeem.length ≤ maxScriptElementSize) : signatureScript raws redeem = .ok (multiSigInput raws redeem) := by
  have hmax : maxScriptSize = 10000 := rfl
  have hsize : maxScriptElementSize = 520 := rfl
  have hsmall : ∀ raw∈raws, raw.length ≤ maxScriptElementSize := fun raw hraw => by
    have := (hraws raw hraw).2
    omega
  have hsum := sum_canonicalDataSize_le hraws
  have hflat := length_flatMap_pushData (fun raw hraw => (hraws raw hraw).1) hsmall
  have hredeem := canonicalDataSize_le h2 h
  refine bind_eq_ok.mpr ⟨[0],rfl,bind_eq_ok.mpr ⟨_,ScriptBuilder.foldlM_addData
    (fun raw hraw => (hraws raw hraw).1) hsmall (by rw [length_singleton]; omega),?_⟩⟩
  rw [ScriptBuilder.addData_eq_ok (by rw [length_append,hflat,length_singleton]; omega) h]
  simp [multiSigInput,flatMap_def]

theorem length_le_of_signatureScript {raws : List (List UInt8)} {script : Script}
    (h : signatureScript raws redeem = .ok script) : redeem.length ≤ maxScriptElementSize := by
  simp only [signatureScript,ScriptBuilder.addData,checks_ok,decide_eq_true_eq] at h
  obtain ⟨-,-,-,-,-,hlen,-⟩ := h
  exact hlen

theorem MsgTx.getElem?_withScripts {tx : MsgTx} {scripts : List Script} {i : TxIn} {script : Script}
    (hi : tx.txIn[j]? = some i) (hscript : scripts[j]? = some script) :
    (tx.withScripts scripts).txIn[j]? = some { i with signatureScript := script } := by
  simp [withScripts,List.getElem?_zipWith,hi,hscript]

theorem MsgTx.unsigned_withScripts {tx : MsgTx} {scripts : List Script} (h : scripts.length=tx.txIn.length) :
    (tx.withScripts scripts).unsigned = tx.unsigned := by
  have hstrip : ∀ (ins : List TxIn) (scripts : List Script), scripts.length = ins.length →
      (ins.zipWith (fun i script => { i with signatureScript := script }) scripts).map
        (fun i => ({ i with signatureScript := [],witness := [] } : TxIn)) =
      ins.map fun i => { i with signatureScript := [],witness := [] } := by
    intro ins
    induction ins with
    | nil => simp
    | cons i ins ih =>
      intro scripts hlen
      cases scripts with
      | nil => simp at hlen
      | cons script scripts => simpa using ih scripts (by simpa using hlen)
  simp only [unsigned,withScripts,hstrip _ _ h]

private theorem forall₂_getElem? {β : Type} {R : α → β → Prop} {l : List α} {r : List β}
    (h : List.Forall₂ R l r) {a : α} (ha : l[j]? = some a) : ∃ b, r[j]? = some b ∧ R a b := by
  induction h generalizing j with
  | nil => simp at ha
  | cons hab _ ih =>
    cases j with
    | zero =>
      rw [List.getElem?_cons_zero,Option.some.injEq] at ha
      exact ⟨_,rfl,ha ▸ hab⟩
    | succ j => exact ih (by simpa using ha)

section

variable [Signing]

namespace SignerSet

variable (s : SignerSet)

def depositRedeemScript (d : Destination) : Script :=
  [0x15,d.kind.code]++toBytes 20 d.hash.toNat++[0x75]++s.redeemScript

/-- The first `Required` positions with signatures, in the order of the keys. -/
def signers (sigs : ℕ → Option (List (List UInt8))) : List ℕ :=
  ((List.range s.pubKeys.length).filter fun i => (sigs i).isSome).take s.required.toNat

def inputScript (sigs : ℕ → Option (List (List UInt8))) (p : Script × ℕ) : Except AssembleError Script := do
  let inputSigs ← (s.signers sigs).mapM fun signer => found ((sigs signer).bind fun l => l[p.2]?) .outOfRange
  (signatureScript inputSigs p.1).mapError .script

def assemble (tx : MsgTx) (redeems : List Script) (sigs : ℕ → Option (List (List UInt8))) :
    Except AssembleError MsgTx := do
  ensure (redeems.length = tx.txIn.length) (.redeemScripts redeems.length tx.txIn.length)
  ensure (s.required ≤ (s.signers sigs).length) (.signatures (s.signers sigs).length s.required)
  let scripts ← redeems.zipIdx.mapM (s.inputScript sigs)
  return tx.withScripts scripts

end SignerSet

/-- A signer set one of the three ways of making one has accepted. -/
inductive Accepted : SignerSet → Prop
  | new {required total random s} (h : newSignerSet required total random = .ok s) : Accepted s
  | read {f s} (h : readSignerSet f = .ok s) : Accepted s
  | assembled {required coordinatorKey coordinatorTLS cards s}
      (h : setupAssemble required coordinatorKey coordinatorTLS cards = .ok s) : Accepted s

theorem Accepted.loaded {s : SignerSet} (h : Accepted s) : ∃ f, Loaded f s := by
  cases h with
  | new h =>
    simp only [newSignerSet,bind_eq_ok] at h
    obtain ⟨-,-,secrets,-,hload⟩ := h
    exact ⟨_,load_eq_ok hload⟩
  | read h => exact ⟨_,load_eq_ok h⟩
  | assembled h =>
    exact ⟨_,(setupAssemble_eq_ok h).1⟩

/-! ## The redeem scripts of a set -/

section Redeem

variable {f : SignerFile} {s : SignerSet}

theorem length_serialized (pubs : List Signing.PubKey) : ∀ k∈pubs.map serializeCompressed, k.length = 33 := by
  intro k hk
  obtain ⟨p,-,rfl⟩ := mem_map.mp hk
  exact length_serializeCompressed p

theorem Loaded.redeemScript_eq (h : Loaded f s) (h16 : s.pubKeys.length≤16) :
    s.redeemScript = (multiSigChunks (s.pubKeys.map serializeCompressed) s.required.toNat).flatten ∧
      s.redeemScript.length = 34*s.pubKeys.length+3 := by
  have hpos := h.required_pos
  have hle := h.required_le
  have hfile : s.required = f.required := by rw [← h.file]
  have hnat : ((s.required.toNat : ℕ) : ℤ) = f.required := by omega
  have hscript := h.script
  rw [← hnat] at hscript
  have hsmall := multiSigScript_small (length_serialized s.pubKeys) (show 1 ≤ s.required.toNat by omega)
    (by rw [length_map]; omega) (by rwa [length_map]) hscript
  rwa [length_map] at hsmall

theorem SignerSet.length_depositRedeemScript (d : Destination) :
    (s.depositRedeemScript d).length = 23+s.redeemScript.length := by
  simp [depositRedeemScript]
  omega

/-- The redeem scripts of the set: the peg's, and one for each personal deposit address. -/
def SignerSet.IsRedeem (s : SignerSet) (redeem : Script) : Prop :=
  redeem = s.redeemScript ∨ ∃ d, redeem = s.depositRedeemScript d

theorem Loaded.redeems (h : Loaded f s) (h16 : s.pubKeys.length≤16) (hredeem : s.IsRedeem redeem) :
    Redeems redeem (s.pubKeys.map serializeCompressed) s.required.toNat := by
  have hpos := h.required_pos
  have hle := h.required_le
  have hfile : s.required = f.required := by rw [← h.file]
  have hencodes := encodes_multiSigChunks (length_serialized s.pubKeys)
    (show 1 ≤ s.required.toNat by omega) (by rw [length_map]; omega) (by rwa [length_map])
  obtain ⟨hscript,-⟩ := h.redeemScript_eq h16
  rcases hredeem with rfl | ⟨d,rfl⟩
  · refine .peg ?_
    rw [hscript]
    exact tokens_flatten hencodes
  · have hlen : (d.kind.code::toBytes 20 d.hash.toNat).length = 21 := by simp
    refine .deposit (d.kind.code::toBytes 20 d.hash.toNat) ?_ hlen ?_
    · have hflat : s.depositRedeemScript d = (ScriptBuilder.pushData (d.kind.code::toBytes 20 d.hash.toNat) ::
          [opDrop]::multiSigChunks (s.pubKeys.map serializeCompressed) s.required.toNat).flatten := by
        rw [depositRedeemScript,hscript,pushData_of_short (by omega) (by omega),hlen]
        simp [opDrop]
      rw [hflat]
      exact tokens_flatten (.cons (Encodes.pushData (by omega) (by omega))
        (.cons (Encodes.op (.inr (by decide))) hencodes))
    · cases d.kind
      · exact .inl rfl
      · exact .inr rfl

end Redeem

/-! ## Signatures -/

/-- Everyone who signed has a valid signature of every input, and there are enough of them. -/
structure SignedBy (s : SignerSet) (tx : MsgTx) (redeems : List Script) (sigs : ℕ → Option (List (List UInt8))) :
    Prop where
  enough : s.required.toNat ≤ ((List.range s.pubKeys.length).filter fun i => (sigs i).isSome).length
  valid : ∀ i l, sigs i = some l → ∀ pub, s.pubKeys[i]? = some pub → ∀ j redeem, redeems[j]? = some redeem →
    ∃ raw, l[j]? = some raw ∧ ValidSignature redeem tx j raw pub

variable {s : SignerSet} {tx : MsgTx} {redeems : List Script} {sigs : ℕ → Option (List (List UInt8))}

theorem signers_sublist : s.signers sigs <+ List.range s.pubKeys.length := (take_sublist ..).trans filter_sublist

/-- The signatures `assemble` puts into an input are those of keys of the set, in their order. -/
theorem SignedBy.inputSigs (h : SignedBy s tx redeems sigs) (hj : redeems[j]? = some redeem) :
    ∃ raws, List.Forall₂ (fun i raw => (sigs i).bind (fun l => l[j]?) = some raw) (s.signers sigs) raws ∧
      SublistForall₂ (ValidSignature redeem tx j) raws s.pubKeys := by
  have hpick : ∀ is : List ℕ, is <+ s.signers sigs → ∃ raws pubs,
      List.Forall₂ (fun i raw => (sigs i).bind (fun l => l[j]?) = some raw) is raws ∧
      List.Forall₂ (ValidSignature redeem tx j) raws pubs ∧ is.map (fun i => s.pubKeys[i]?) = pubs.map some := by
    intro is
    induction is with
    | nil => exact fun _ => ⟨[],[],.nil,.nil,rfl⟩
    | cons i is ih =>
      intro hsub
      have hmem : i∈s.signers sigs := hsub.subset (mem_cons_self ..)
      have hfilter := mem_of_mem_take hmem
      obtain ⟨l,hl⟩ := Option.isSome_iff_exists.mp (mem_filter.mp hfilter).2
      have hlt : i < s.pubKeys.length := mem_range.mp (mem_filter.mp hfilter).1
      have hpub : s.pubKeys[i]? = some s.pubKeys[i] := List.getElem?_eq_getElem hlt
      obtain ⟨raw,hraw,hvalid⟩ := h.valid i l hl _ hpub j redeem hj
      obtain ⟨raws,pubs,hraws,hvalids,hpubs⟩ := ih ((sublist_cons_self ..).trans hsub)
      refine ⟨raw::raws,s.pubKeys[i]::pubs,.cons ?_ hraws,.cons hvalid hvalids,?_⟩
      · rw [hl]
        exact hraw
      · rw [map_cons,map_cons,hpubs,hpub]
  obtain ⟨raws,pubs,hraws,hvalid,hpubs⟩ := hpick _ (List.Sublist.refl _)
  exact ⟨raws,hraws,sublistForall₂_iff.mpr ⟨pubs,hvalid,sublist_of_positions hpubs signers_sublist⟩⟩

theorem ValidSignature.of_unsigned_eq {tx tx' : MsgTx} {raw : List UInt8}
    {pub : Signing.PubKey} (h : ValidSignature redeem tx j raw pub) (htx : tx'.unsigned=tx.unsigned) :
    ValidSignature redeem tx' j raw pub := by
  refine ⟨h.hashType,h.encoded,?_⟩
  rw [calcSignatureHash,htx]
  exact h.verifies

/-- The signature script `assemble` makes for an input of the set. -/
structure InputOf (s : SignerSet) (tx : MsgTx) (sigs : ℕ → Option (List (List UInt8))) (p : Script × ℕ)
    (script : Script) : Prop where
  made : ∃ raws, script = multiSigInput raws p.1 ∧
    List.Forall₂ (fun i raw => (sigs i).bind (fun l => l[p.2]?) = some raw) (s.signers sigs) raws ∧
    SublistForall₂ (ValidSignature p.1 tx p.2) raws s.pubKeys

theorem bounds_of_valid {raws : List (List UInt8)} (h : SublistForall₂ (ValidSignature redeem tx j) raws s.pubKeys) :
    ∀ raw∈raws, 2 ≤ raw.length ∧ raw.length ≤ 73 := by
  intro raw hraw
  obtain ⟨pub,-,hvalid⟩ := exists_of_mem_sublistForall₂ h raw hraw
  obtain ⟨hmin,hmax⟩ := hvalid.length_bounds
  omega

theorem SignedBy.length_signers (h : SignedBy s tx redeems sigs) : (s.signers sigs).length = s.required.toNat := by
  rw [signers,length_take,Nat.min_eq_left h.enough]

theorem SignedBy.inputScript (h : SignedBy s tx redeems sigs)
    (hj : redeems[j]? = some redeem) (h16 : s.required.toNat≤16) (h2 : 2 ≤ redeem.length)
    (hsize : redeem.length ≤ maxScriptElementSize) :
    ∃ script, s.inputScript sigs (redeem,j) = .ok script ∧ InputOf s tx sigs (redeem,j) script := by
  obtain ⟨raws,hraws,hvalid⟩ := h.inputSigs hj
  have hlen : raws.length = s.required.toNat := hraws.length_eq.symm.trans h.length_signers
  refine ⟨multiSigInput raws redeem,?_,raws,rfl,hraws,hvalid⟩
  refine bind_eq_ok.mpr ⟨raws,mapM_eq_ok (hraws.imp fun _ _ h => found_eq_ok.mpr h),mapError_eq_ok.mpr ?_⟩
  exact signatureScript_eq_ok (bounds_of_valid hvalid) (by omega) h2 hsize

theorem SignedBy.assemble (h : SignedBy s tx redeems sigs) (hcount : redeems.length=tx.txIn.length)
    (h16 : s.required.toNat≤16)
    (hsize : ∀ redeem∈redeems, 2 ≤ redeem.length ∧ redeem.length ≤ maxScriptElementSize) :
    ∃ scripts, s.assemble tx redeems sigs = .ok (tx.withScripts scripts) ∧ scripts.length = tx.txIn.length ∧
      ∀ j redeem, redeems[j]? = some redeem →
        ∃ script, scripts[j]? = some script ∧ InputOf s tx sigs (redeem,j) script := by
  obtain ⟨scripts,hscripts,hall⟩ : ∃ scripts, redeems.zipIdx.mapM (s.inputScript sigs) = .ok scripts ∧
      List.Forall₂ (InputOf s tx sigs) redeems.zipIdx scripts := by
    refine exists_mapM_ok fun p hp => ?_
    have hj := mem_zipIdx_iff_getElem?.mp hp
    obtain ⟨h2,hle⟩ := hsize p.1 (mem_of_getElem? hj)
    exact h.inputScript hj h16 h2 hle
  have hsigners := h.length_signers
  refine ⟨scripts,?_,?_,?_⟩
  · refine bind_eq_ok.mpr ⟨(),ensure_eq_ok.mpr (by simpa using hcount),?_⟩
    refine bind_eq_ok.mpr ⟨(),ensure_eq_ok.mpr (by simp [hsigners]),?_⟩
    exact bind_eq_ok.mpr ⟨scripts,hscripts,rfl⟩
  · rw [← hall.length_eq,length_zipIdx,hcount]
  · intro j redeem hj
    exact forall₂_getElem? hall (by rw [List.getElem?_zipIdx,hj]; simp)

/-! ## Finding one's own signature -/

omit [Signing] in
theorem pushedData_multiSigInput {raws : List (List UInt8)} (hraws : ∀ raw∈raws, 2 ≤ raw.length ∧ raw.length ≤ 73)
    (h2 : 2 ≤ redeem.length) (hsize : redeem.length ≤ maxScriptElementSize) :
    pushedData (multiSigInput raws redeem) = some (([]::raws)++[redeem]) := by
  rw [pushedData,tokens_multiSigInput hraws h2 hsize]
  simp [pushToken,Function.comp_def]

namespace SignerSet

variable (s)

/-- The script is the peg's, or a personal deposit address's. -/
def pegRedeem (script : Script) : Bool :=
  script = s.redeemScript || script.length = s.redeemScript.length+23 && script.head? = some 0x15 &&
    script[22]? = some 0x75 && script.drop 23 = s.redeemScript

/-- Whether an input of `tx` carries a signature by `pub`. -/
def signedBy (tx : MsgTx) (pub : Signing.PubKey) : Bool :=
  s.pubKeys.contains pub && tx.txIn.zipIdx.any fun i => (pushedData i.1.signatureScript).any fun pushes =>
    2 ≤ pushes.length && s.pegRedeem (pushes.getLastD []) && pushes.dropLast.any fun item =>
      2 ≤ item.length && item.getLast? = some sigHashAll && (parseSig true item.dropLast).any fun rs =>
        verify rs (calcSignatureHash (pushes.getLastD []) sigHashAll tx i.2) pub

theorem pegRedeem_of_isRedeem {redeem : Script} (h : s.IsRedeem redeem) : s.pegRedeem redeem = true := by
  rcases h with rfl | ⟨d,rfl⟩
  · simp [pegRedeem]
  · have hlen : (s.depositRedeemScript d).length = s.redeemScript.length+23 := by
      rw [length_depositRedeemScript,Nat.add_comm]
    have hlong : (toBytes 20 d.hash.toNat).length = 20 := length_toBytes 20 _
    have hdrop : (s.depositRedeemScript d).drop 23 = s.redeemScript := by
      simp [depositRedeemScript,List.drop_append,hlong]
    have hop : (s.depositRedeemScript d)[22]? = some 0x75 := by
      simp [depositRedeemScript,hlong]
    have hhead : (s.depositRedeemScript d).head? = some 0x15 := rfl
    rw [pegRedeem,hlen,hhead,hop,hdrop]
    simp

end SignerSet

/-- What `assemble` makes with a signature by `pub` in it. -/
def SignerSet.Carries (s : SignerSet) (pub : Signing.PubKey) (signed : MsgTx) : Prop :=
  ∃ tx redeems sigs i, tx.txIn ≠ [] ∧ (∀ redeem∈redeems, s.IsRedeem redeem) ∧ redeems.length = tx.txIn.length ∧
    SignedBy s tx redeems sigs ∧ i∈s.signers sigs ∧ s.pubKeys[i]? = some pub ∧ s.assemble tx redeems sigs = .ok signed

variable {f : SignerFile}

theorem Loaded.length_isRedeem (h : Loaded f s) (h14 : s.pubKeys.length≤14)
    (hredeem : s.IsRedeem redeem) : 2 ≤ redeem.length ∧ redeem.length ≤ 502 := by
  obtain ⟨-,hpeg⟩ := h.redeemScript_eq (by omega)
  have hpos := h.required_pos
  have hle := h.required_le
  have hfile : s.required = f.required := by rw [← h.file]
  rcases hredeem with rfl | ⟨d,rfl⟩
  · omega
  · rw [length_depositRedeemScript]
    omega

/-- Whoever's signature is in it finds it. -/
theorem Loaded.signedBy_of_carries (hloaded : Loaded f s) (h14 : s.pubKeys.length≤14)
    {pub : Signing.PubKey} {signed : MsgTx} (hcarries : s.Carries pub signed) : s.signedBy signed pub = true := by
  obtain ⟨tx,redeems,sigs,i,hne,hredeems,hcount,h,hi,hpub,hok⟩ := hcarries
  have hle := hloaded.required_le
  have hfile : s.required = f.required := by rw [← hloaded.file]
  have hsize : ∀ redeem∈redeems, 2 ≤ redeem.length ∧ redeem.length ≤ maxScriptElementSize := fun redeem hr =>
    (hloaded.length_isRedeem h14 (hredeems redeem hr)).imp_right fun h502 => h502.trans (by decide)
  obtain ⟨scripts,hassemble,hlen,hall⟩ := h.assemble hcount (by omega) hsize
  cases hok.symm.trans hassemble
  -- any input will do, here the first
  obtain ⟨input,rest,htx⟩ := exists_cons_of_ne_nil hne
  have hinput : tx.txIn[0]? = some input := by rw [htx]; rfl
  obtain ⟨redeem,hredeem⟩ : ∃ redeem, redeems[0]? = some redeem :=
    ⟨_,List.getElem?_eq_getElem (by rw [hcount,htx]; exact Nat.succ_pos _)⟩
  obtain ⟨script,hscript,raws,rfl,hpicked,hvalid⟩ := hall 0 redeem hredeem
  obtain ⟨k,hk⟩ := List.getElem?_of_mem hi
  obtain ⟨raw,hraw,hsig⟩ := forall₂_getElem? hpicked hk
  obtain ⟨l,hl,hown⟩ := Option.bind_eq_some_iff.mp hsig
  obtain ⟨_,hown',hv⟩ := h.valid i l hl pub hpub 0 redeem hredeem
  cases hown.symm.trans hown'
  obtain ⟨rs,hparse,hverify⟩ := (hv.of_unsigned_eq (MsgTx.unsigned_withScripts hlen)).verifies
  obtain ⟨h2,hle⟩ := hsize redeem (mem_of_getElem? hredeem)
  have hbounds := bounds_of_valid hvalid
  have hmem := mem_of_getElem? hraw
  rw [SignerSet.signedBy,Bool.and_eq_true,any_eq_true]
  refine ⟨by simpa using mem_of_getElem? hpub, (_,0),
    mem_zipIdx_iff_getElem?.mpr (MsgTx.getElem?_withScripts hinput hscript),?_⟩
  rw [pushedData_multiSigInput hbounds h2 hle,Option.any_some,getLastD_concat,dropLast_concat]
  simp only [Bool.and_eq_true,any_eq_true,decide_eq_true_eq]
  refine ⟨⟨by simp, s.pegRedeem_of_isRedeem (hredeems redeem (mem_of_getElem? hredeem))⟩,raw,mem_cons_of_mem _ hmem,
    ⟨(hbounds raw hmem).1,hv.hashType⟩,?_⟩
  rw [hparse]
  exact hverify

variable [Hashing]

/-- The set can spend what it holds: its keys can be counted, the redeem scripts are within what a
script pushes, and with valid signatures `assemble` makes inputs that satisfy the script rules,
whichever of them are in force, and the mempool's. -/
structure SignerSet.Spends (s : SignerSet) : Prop where
  countable : s.pubKeys.length ≤ maxPubKeysPerMultiSig
  redeems : ∀ redeem, s.IsRedeem redeem → redeem.length ≤ maxScriptElementSize
  assembles : ∀ tx redeems sigs, (∀ redeem∈redeems, s.IsRedeem redeem) → redeems.length = tx.txIn.length →
    (∀ i∈tx.txIn, i.witness = []) → SignedBy s tx redeems sigs →
    ∃ tx', s.assemble tx redeems sigs = .ok tx' ∧ tx'.unsigned = tx.unsigned ∧
      ∀ j redeem, redeems[j]? = some redeem → ∃ input, tx'.txIn[j]? = some input ∧
        StandardInput input.signatureScript ∧ isScriptHashScript (p2shScript redeem) = true ∧
        ∀ flags, executeScriptHash ⟨flags,tx',j⟩ (p2shScript redeem) = .ok ()

theorem Loaded.spends (hloaded : Loaded f s) (h14 : s.pubKeys.length≤14) : s.Spends := by
  have hpos := hloaded.required_pos
  have hle := hloaded.required_le
  have hfile : s.required = f.required := by rw [← hloaded.file]
  have hmax : maxScriptElementSize = 520 := rfl
  have hlen : ∀ redeem, s.IsRedeem redeem → 2 ≤ redeem.length ∧ redeem.length ≤ 502 :=
    fun redeem => hloaded.length_isRedeem h14
  refine ⟨le_trans h14 (by decide),fun redeem h => (hlen redeem h).2.trans (by decide), ?_⟩
  intro tx redeems sigs hredeems hcount hwitness hsigned
  obtain ⟨scripts,hassemble,hscripts,hall⟩ := hsigned.assemble hcount (by omega)
    fun redeem hr => ⟨(hlen redeem (hredeems redeem hr)).1,(hlen redeem (hredeems redeem hr)).2.trans (by decide)⟩
  have hunsigned := MsgTx.unsigned_withScripts hscripts
  refine ⟨_,hassemble,hunsigned,fun j redeem hj => ?_⟩
  obtain ⟨script,hscript,raws,rfl,hpicked,hvalid⟩ := hall j redeem hj
  have hraws := hpicked.length_eq.symm.trans hsigned.length_signers
  have hredeem := hredeems redeem (mem_of_getElem? hj)
  obtain ⟨h2,h502⟩ := hlen redeem hredeem
  change SublistForall₂ (ValidSignature redeem tx j) raws s.pubKeys at hvalid
  have hsize : redeem.length ≤ maxScriptElementSize := h502.trans (by decide)
  have hbounds := bounds_of_valid hvalid
  have hspends := hloaded.redeems (by omega) hredeem
  obtain ⟨input,hinput⟩ : ∃ input, tx.txIn[j]? = some input := by
    have hlt : j < redeems.length := (List.getElem?_eq_some_iff.mp hj).1
    exact ⟨_,List.getElem?_eq_getElem (hcount ▸ hlt)⟩
  have hinput' := MsgTx.getElem?_withScripts hinput hscript
  refine ⟨_,hinput',⟨?_,?_,isPushOnlyScript_multiSigInput hbounds h2 hsize⟩,?_,fun flags => ?_⟩
  · rw [preciseSigOpCount_multiSigInput hspends hbounds h2 hsize (by omega)
      (by rw [length_map]; omega) (by rw [length_map]; omega),length_map]
    exact h14.trans (by decide)
  · have hlimit : maxStandardSigScriptSize = 1650 := rfl
    have hscript := length_multiSigInput hbounds h2 hsize
    change (multiSigInput raws redeem).length ≤ _
    omega
  · simp [isScriptHashScript,p2shScript,Destination.pkScript]
  · obtain ⟨pubs,hforall,hsub⟩ := sublistForall₂_iff.mp hvalid
    have hvalid' : SublistForall₂ (ValidSignature redeem (tx.withScripts scripts) j) raws s.pubKeys :=
      sublistForall₂_iff.mpr ⟨pubs,hforall.imp fun _ _ h => h.of_unsigned_eq hunsigned, hsub⟩
    exact executeScriptHash_eq_ok hvalid' (by omega) (by omega) (hraws ▸ hspends) h2 hsize hinput' rfl
      (hwitness input (mem_of_getElem? hinput))

/-! ## Fifteen keys -/

omit [Hashing] in
/-- The script of a personal deposit address of fifteen keys or more is longer than a script may push. -/
theorem Loaded.depositRedeemScript_too_long (h : Loaded f s) (h15 : 15 ≤ s.pubKeys.length)
    (d : Destination) : maxScriptElementSize < (s.depositRedeemScript d).length := by
  have hlen := length_multiSigScript (length_serialized s.pubKeys) h.script
  have hmax : maxScriptElementSize = 520 := rfl
  rw [length_map] at hlen
  rw [length_depositRedeemScript]
  omega

/-- An accepted set can spend all it holds exactly if it has at most fourteen keys. -/
theorem accepted_set_spends_iff (s : SignerSet) (hs : Accepted s) : s.Spends ↔ s.pubKeys.length ≤ 14 := by
  obtain ⟨f,hloaded⟩ := hs.loaded
  refine ⟨fun hspends => ?_, hloaded.spends⟩
  by_contra h14
  exact absurd (hspends.redeems _ (.inr ⟨⟨.p2pkh,0⟩,rfl⟩))
    (hloaded.depositRedeemScript_too_long (by omega) _).not_ge

omit [Hashing]

/-- No signatures complete an input that spends such an address. -/
theorem Loaded.assemble_deposit_ne_ok (h : Loaded f s) (h15 : 15 ≤ s.pubKeys.length)
    (d : Destination) (hd : s.depositRedeemScript d∈redeems) (tx' : MsgTx) :
    s.assemble tx redeems sigs ≠ .ok tx' := by
  intro hok
  simp only [assemble,bind_eq_ok] at hok
  obtain ⟨-,-,-,-,scripts,hscripts,-⟩ := hok
  obtain ⟨j,hj⟩ := List.getElem?_of_mem hd
  obtain ⟨script,-,hscript⟩ := mem_of_mapM_ok hscripts (s.depositRedeemScript d,j) (mem_zipIdx_iff_getElem?.mpr hj)
  simp only [inputScript,checks_ok] at hscript
  obtain ⟨raws,-,hscript⟩ := hscript
  exact absurd (length_le_of_signatureScript hscript) (h.depositRedeemScript_too_long h15 d).not_ge

/-! ## The signatures of keys one holds -/

/-- `signInputs`, of redeem scripts that parse, one for each input. -/
def signInputs (tx : MsgTx) (redeems : List Script) (key : Signing.PrivKey) : List (List UInt8) :=
  redeems.zipIdx.map fun p => sign key (calcSignatureHash p.1 sigHashAll tx p.2)++[sigHashAll]

/-- The signatures `sign` and `authorize` make with the keys a process holds. -/
def SignerSet.ownSigs (s : SignerSet) (held : List Signing.PrivKey) (tx : MsgTx) (redeems : List Script) (i : ℕ) :
    Option (List (List UInt8)) :=
  (held.find? fun key => s.pubKeys[i]? = some (pubKey key)).map (signInputs tx redeems)

theorem ValidSignature.of_sign (redeem : Script) (tx : MsgTx) (j : ℕ) (key : Signing.PrivKey) :
    ValidSignature redeem tx j (sign key (calcSignatureHash redeem sigHashAll tx j)++[sigHashAll]) (pubKey key) := by
  refine ⟨by simp, ?_, ?_⟩
  · rw [dropLast_concat]
    exact sign_encoded key _
  · rw [dropLast_concat]
    exact sign_verifies key _

theorem signedBy_ownSigs {held : List Signing.PrivKey} (h : s.required.toNat≤(s.signsFor held).length) :
    SignedBy s tx redeems (s.ownSigs held tx redeems) := by
  refine ⟨?_,fun i l hl pub hpub j redeem hj => ?_⟩
  · refine h.trans_eq (congrArg List.length (filter_congr fun i _ => ?_))
    rw [ownSigs,Option.isSome_map,Bool.eq_iff_iff,any_eq_true,List.find?_isSome]
  · obtain ⟨key,hkey,rfl⟩ := Option.map_eq_some_iff.mp hl
    have hown := List.find?_some hkey
    simp only [hpub,decide_eq_true_eq,Option.some.injEq] at hown
    refine ⟨_,?_,hown ▸ ValidSignature.of_sign redeem tx j key⟩
    simp [signInputs,hj]

end

section Sample

attribute [local instance] sampleHashing sampleSigning

/-- A random source that answers with the numbers from one on. -/
def sampleSecrets (i : ℕ) : Option (BitVec 256) := some (BitVec.ofNat 256 (i+1))

/-- `newSignerSet` makes a set of fifteen keys whose personal deposit addresses it cannot spend. -/
theorem fifteen_keys_cannot_spend : ∃ s, newSignerSet 1 15 sampleSecrets = .ok s ∧
      (∀ d, maxScriptElementSize < (s.depositRedeemScript d).length) ∧
      ∀ tx d sigs, SignedBy s tx [s.depositRedeemScript d] sigs →
        ¬ ∃ tx', s.assemble tx [s.depositRedeemScript d] sigs = .ok tx' := by
  obtain ⟨s,hs,hkeys⟩ := exists_ok_of_any (x := newSignerSet 1 15 sampleSecrets)
    (p := fun s => decide (s.pubKeys.length = 15)) (by decide +kernel)
  rw [decide_eq_true_eq] at hkeys
  obtain ⟨f,hloaded⟩ := (Accepted.new hs).loaded
  refine ⟨s,hs,hloaded.depositRedeemScript_too_long hkeys.ge,fun tx d sigs _ => ?_⟩
  rintro ⟨tx',hok⟩
  exact hloaded.assemble_deposit_ne_ok hkeys.ge d (mem_singleton_self _) tx' hok

def sampleSpend : MsgTx where
  version := 1
  txIn := [⟨⟨1,0⟩,[],[],0xffffffff⟩]
  txOut := [⟨1,[]⟩]
  lockTime := 0
  outputs_le := by decide

/-- Two of three keys spend a personal deposit address under the mempool's rules. -/
theorem two_of_three_spend : ∃ s, newSignerSet 2 3 sampleSecrets = .ok s ∧ ∃ tx', s.assemble sampleSpend
        [s.depositRedeemScript ⟨.p2pkh,7⟩]
        (s.ownSigs [(1 : BitVec 256),(3 : BitVec 256)] sampleSpend [s.depositRedeemScript ⟨.p2pkh,7⟩]) = .ok tx' ∧
      executeScriptHash ⟨standardVerifyFlags,tx',0⟩ (p2shScript (s.depositRedeemScript ⟨.p2pkh,7⟩)) = .ok () := by
  obtain ⟨s,hs,hkeys⟩ := exists_ok_of_any (x := newSignerSet 2 3 sampleSecrets)
    (p := fun s => decide (s.pubKeys.length = 3 ∧
      s.required.toNat ≤ (s.signsFor [(1 : BitVec 256),(3 : BitVec 256)]).length)) (by decide +kernel)
  rw [decide_eq_true_eq] at hkeys
  have hspends := (accepted_set_spends_iff s (.new hs)).mpr (by omega)
  obtain ⟨tx',hok,-,hinputs⟩ := hspends.assembles sampleSpend [s.depositRedeemScript ⟨.p2pkh,7⟩]
    (s.ownSigs [(1 : BitVec 256),(3 : BitVec 256)] sampleSpend [s.depositRedeemScript ⟨.p2pkh,7⟩])
    (fun redeem h => .inr ⟨_,mem_singleton.mp h⟩) rfl (by decide) (signedBy_ownSigs hkeys.2)
  obtain ⟨-,-,-,-,hrun⟩ := hinputs 0 _ rfl
  exact ⟨s,hs,tx',hok,hrun standardVerifyFlags⟩

end Sample

end DogePeg
