import DogePeg.Bridge.Unsettled
import DogePeg.Node.Ledger

/-!
# What the proofs of a dropped transaction count for

An operator records any number of proofs that a transaction the wallet dropped cannot be mined, and each
read of the history checks them against the chain (`cmd/dogevm/deadproof.go`). Recording one never takes
away what the others show, and no proof shows more than a block of the main chain.
-/

namespace DogePeg

open Checks Node List

section

variable [Hashing]

/-! ## The depth -/

/-- `droppedDepth` of a record's proofs, which fails if a transaction the wallet lists in a block
cannot be read. -/
def WalletView.droppedDepth (v : WalletView) (dropped : MsgTx) (proofs : List FileProof) : Except HistoryError ℤ :=
  if ∃ e∈v.entries, 0 < e.height ∧ e.conflicted = false ∧ v.readable e = false then .error .scanning
  else .ok ((v.wallet []).deadDepth ⟨dropped,0,proofs.map v.proof,false⟩)

def WalletView.depthOfProof (v : WalletView) (dropped : MsgTx) (p : FileProof) : ℤ :=
  (proofDepth dropped (v.proof p)).getD 0

namespace Wallet

variable {w : Wallet} {r : DeadRecord}

theorem deadDepth_le_iff {b : ℤ} : w.deadDepth r ≤ b ↔
    w.walletConflictDepth r.tx ≤ b ∧ ∀ p∈r.proofs, ∀ d, proofDepth r.tx p = some d → d ≤ b := by
  rw [deadDepth,foldl_max_le_iff]
  simp only [mem_filterMap]
  exact and_congr_right fun _ => ⟨fun h p hp d hd => h d ⟨p,hp,hd⟩, fun h d ⟨p,hp,hd⟩ => h p hp d hd⟩

theorem deadDepth_cases (w : Wallet) (r : DeadRecord) : w.deadDepth r = 0 ∨
    (∃ e∈w.entries, inBlock e = true ∧ spendsInputOf e.tx r.tx = true ∧ w.deadDepth r = w.depthOf e) ∨
    ∃ p∈r.proofs, proofDepth r.tx p = some (w.deadDepth r) := by
  rcases foldl_max_mem (r.proofs.filterMap (proofDepth r.tx)) (w.walletConflictDepth r.tx) with hwallet | hproof
  · rcases foldl_max_mem ((w.entries.filter fun e => inBlock e && spendsInputOf e.tx r.tx).map w.depthOf) 0
      with hzero | hlisted
    · exact .inl (hwallet.trans hzero)
    · obtain ⟨e,he,hdepth⟩ := mem_map.mp hlisted
      obtain ⟨hmem,he⟩ := mem_filter.mp he
      rw [Bool.and_eq_true] at he
      exact .inr (.inl ⟨e,hmem,he.1,he.2,hwallet.trans hdepth.symm⟩)
  · obtain ⟨p,hp,hdepth⟩ := mem_filterMap.mp hproof
    exact .inr (.inr ⟨p,hp,hdepth⟩)

end Wallet

namespace WalletView

variable {v : WalletView} {dropped : MsgTx} {proofs : List FileProof} {d : ℤ}

theorem droppedDepth_isOk (h : v.droppedDepth dropped proofs = .ok d) (qs : List FileProof) :
    ∃ d', v.droppedDepth dropped qs = .ok d' := by
  unfold droppedDepth at h ⊢
  split at h
  · cases h
  · next hreads => exact ⟨_,if_neg hreads⟩

theorem droppedDepth_of_ok (h : v.droppedDepth dropped proofs = .ok d) :
    d = (v.wallet []).deadDepth ⟨dropped,0,proofs.map v.proof,false⟩ := by
  unfold droppedDepth at h
  split at h
  · cases h
  · exact (Except.ok.inj h).symm

theorem droppedDepth_mono {qs : List FileProof} {d' : ℤ} (h : v.droppedDepth dropped proofs = .ok d)
    (h' : v.droppedDepth dropped qs = .ok d') (hsub : ∀ q∈qs, q∈proofs) : d' ≤ d := by
  rw [droppedDepth_of_ok h',droppedDepth_of_ok h]
  obtain ⟨hwallet,hproofs⟩ := Wallet.deadDepth_le_iff.mp
    (le_refl ((v.wallet []).deadDepth ⟨dropped,0,proofs.map v.proof,false⟩))
  refine Wallet.deadDepth_le_iff.mpr ⟨hwallet,fun p hp => hproofs p ?_⟩
  obtain ⟨q,hq,rfl⟩ := mem_map.mp hp
  exact mem_map_of_mem (hsub q hq)

theorem depthOfProof_le {q : FileProof} (h : v.droppedDepth dropped proofs = .ok d) (hq : q∈proofs) :
    v.depthOfProof dropped q ≤ d := by
  have hd := droppedDepth_of_ok h
  have hproofs := (Wallet.deadDepth_le_iff.mp hd.ge).2 (v.proof q) (mem_map_of_mem hq)
  rw [depthOfProof]
  cases hdepth : proofDepth dropped (v.proof q) with
  | none => exact ((v.wallet []).deadDepth_nonneg _).trans hd.ge
  | some x => exact hproofs x hdepth

theorem droppedDepth_append (v : WalletView) (dropped : MsgTx) (proofs : List FileProof) (q : FileProof) :
    v.droppedDepth dropped (proofs++[q]) =
      (v.droppedDepth dropped proofs).map fun d => max d (v.depthOfProof dropped q) := by
  unfold droppedDepth
  split
  · rfl
  · have hnonneg := (v.wallet []).deadDepth_nonneg ⟨dropped,0,proofs.map v.proof,false⟩
    change Except.ok _ = Except.ok _
    have happend : (v.wallet []).deadDepth ⟨dropped,0,(proofs++[q]).map v.proof,false⟩ =
        (([q].map v.proof).filterMap (proofDepth dropped)).foldl max
          ((v.wallet []).deadDepth ⟨dropped,0,proofs.map v.proof,false⟩) := by
      simp only [Wallet.deadDepth,map_append,filterMap_append,foldl_append]
    rw [happend,depthOfProof]
    cases hq : proofDepth dropped (v.proof q) with
    | none => simp [hq,hnonneg]
    | some d => simp [hq]

end WalletView

/-! ## Recording proofs -/

/-- A call of `addProof`, and what fails while it writes the file. -/
structure ProofCall where
  txid : Hash
  proof : FileProof
  fault : FileFault

namespace ProofCall

def call (c : ProofCall) : FileCall := .addProof c.txid c.proof c.fault

/-- The call puts the proof into the file. -/
def Records (c : ProofCall) (txid : Hash) (q : FileProof) : Prop :=
  c.txid = txid ∧ c.proof = q ∧ (c.fault = .none ∨ c.fault = .syncDir)

variable {depth : ℤ} {file : UnsettledFile} {txid : Hash} {r : UnsettledRecord}

/-- A call leaves the record of a transaction with its proofs, and with the new one if it records it. -/
theorem step_keeps (hr : file.lookup txid=some r) (c : ProofCall) :
    ∃ r', (c.call.step depth file).lookup txid = some r' ∧ r'.tx = r.tx ∧
      ∀ q, q∈r.allProofs ∨ c.Records txid q → q∈r'.allProofs := by
  simp only [call,FileCall.step]
  split
  · next hadd =>
    refine ⟨r,hr,rfl,fun q hq => hq.resolve_right ?_⟩
    rintro ⟨rfl,-,-⟩
    rw [addProof,hr] at hadd
    grind
  · next file' changed hadd =>
    obtain ⟨hother,r₀,r',hr₀,hr',htx,-,hp,hkeeps,-⟩ := addProof_spec hadd
    split
    · by_cases hid : txid = c.txid
      · subst hid
        cases hr₀.symm.trans hr
        refine ⟨r',hr',htx,?_⟩
        rintro q (hq | ⟨-,rfl,-⟩)
        · exact hkeeps q hq
        · exact hp
      · refine ⟨r,(hother txid hid).trans hr,rfl,fun q hq => hq.resolve_right ?_⟩
        exact fun h => hid h.1.symm
    · next hfault =>
      refine ⟨r,hr,rfl,fun q hq => hq.resolve_right ?_⟩
      rintro ⟨-,-,hwritten⟩
      simp [hwritten] at hfault

theorem run_keeps (hr : file.lookup txid=some r) (calls : List ProofCall) :
    ∃ r', (FileCall.run depth file (calls.map call)).lookup txid = some r' ∧ r'.tx = r.tx ∧
      ∀ q, (q∈r.allProofs ∨ ∃ c∈calls, c.Records txid q) → q∈r'.allProofs := by
  induction calls generalizing file r with
  | nil => exact ⟨r,hr,rfl,by simp⟩
  | cons c calls ih =>
    obtain ⟨r₁,hr₁,htx₁,hkeeps₁⟩ := step_keeps hr c
    obtain ⟨r₂,hr₂,htx₂,hkeeps₂⟩ := ih hr₁
    refine ⟨r₂,hr₂,htx₂.trans htx₁,fun q hq => hkeeps₂ q ?_⟩
    rcases hq with hq | ⟨c',hc',hq⟩
    · exact .inl (hkeeps₁ q (.inl hq))
    · rcases mem_cons.mp hc' with rfl | hc'
      · exact .inl (hkeeps₁ q (.inr hq))
      · exact .inr ⟨c',hc',hq⟩

end ProofCall

omit [Hashing] in
/-- `addProof` of a proof the record has changes nothing; a new one goes to the end, and the proof of an
earlier build to the front of the list. -/
theorem addProof_allProofs {txid : Hash} {p : FileProof} {file : UnsettledFile} {r : UnsettledRecord}
    {out : UnsettledFile × Bool} (hr : file.lookup txid=some r) (h : addProof txid p file=some out) :
    (p∈r.allProofs ∧ out.1 = file) ∨ ∃ r', out.1.lookup txid = some r' ∧ r'.tx = r.tx ∧ r'.proof = none ∧
      r'.allProofs = r.allProofs++[p] := by
  rw [addProof,hr] at h
  dsimp only at h
  split at h
  · next hp =>
    cases h
    exact .inl ⟨hp,rfl⟩
  · cases h
    exact .inr ⟨_,AList.lookup_insert ..,rfl,rfl,rfl⟩

/-! ## The main chain -/

/-- The node's answers are about one main chain, whose blocks are listed from the tip down. -/
structure WalletView.Reads (v : WalletView) (blocks : List (List MsgTx)) : Prop where
  mined : ∀ e∈v.entries, 0 < e.height → e.conflicted = false →
    ∃ (i : ℕ) (block : List MsgTx), blocks[i]? = some block ∧ v.tip-e.height = i ∧ e.tx∈block
  getblock : ∀ p answer, (v.proof p).block = some answer → 1 ≤ answer.confirmations →
    ∃ (i : ℕ) (block : List MsgTx), blocks[i]? = some block ∧ answer.confirmations = i+1 ∧
      answer.txids = block.map MsgTx.txHash

/-- A block `d` deep holds another transaction that spends an input of the dropped one. -/
def ConflictAt (blocks : List (List MsgTx)) (dropped : MsgTx) (d : ℤ) : Prop :=
  ∃ (i : ℕ) (block : List MsgTx), blocks[i]? = some block ∧ d = i+1 ∧
    ∃ t∈block, t.txHash ≠ dropped.txHash ∧ ∃ op∈t.spends, op∈dropped.spends ∧ isNullOutPoint op = false

theorem spendsInputOf_iff {spender dropped : MsgTx} : spendsInputOf spender dropped = true ↔
    spender.txHash ≠ dropped.txHash ∧ ∃ op∈spender.spends, op∈dropped.spends ∧ isNullOutPoint op = false := by
  simp [spendsInputOf]

theorem WalletView.Reads.conflictAt {v : WalletView} {blocks : List (List MsgTx)} (h : v.Reads blocks)
    {dropped : MsgTx} {proofs : List FileProof} {d : ℤ}
    (hfree : CollisionFree (blocks.flatten++proofs.filterMap fun p => (v.proof p).spender))
    (hdepth : v.droppedDepth dropped proofs = .ok d) : d = 0 ∨ ConflictAt blocks dropped d := by
  obtain rfl := droppedDepth_of_ok hdepth
  rcases (v.wallet []).deadDepth_cases ⟨dropped,0,proofs.map v.proof,false⟩ with hzero |
    ⟨e,he,hin,hspends,hdeep⟩ | ⟨p,hp,hdeep⟩
  · exact .inl hzero
  · simp only [Wallet.inBlock,Bool.and_eq_true,decide_eq_true_eq,Bool.not_eq_true'] at hin
    obtain ⟨i,block,hblock,hheight,hmem⟩ := h.mined e he hin.1 hin.2
    have htip : v.tip-e.height+1 = i+1 := by rw [hheight]
    exact .inr ⟨i,block,hblock,hdeep.trans htip,e.tx,hmem,spendsInputOf_iff.mp hspends⟩
  · obtain ⟨q,hq,rfl⟩ := mem_map.mp hp
    rcases of_proofDepth hdeep with hzero | ⟨spender,answer,hspender,hanswer,hmain,hconf,hholds,hspends⟩
    · exact .inl hzero
    · obtain ⟨i,block,hblock,hi,htxids⟩ := h.getblock q answer hanswer hmain
      rw [htxids] at hholds
      obtain ⟨t,ht,hhash⟩ := mem_map.mp hholds
      -- the block's transaction of that hash has the inputs of the proof's spender
      have hknown : t∈blocks.flatten := mem_flatten.mpr ⟨block,mem_of_getElem? hblock,ht⟩
      have hstrip := hfree t (mem_append_left _ hknown) spender
        (mem_append_right _ (mem_filterMap.mpr ⟨q,hq,hspender⟩)) hhash
      have hsame : t.spends = spender.spends := by
        rw [← t.stripWitness_spends,hstrip,spender.stripWitness_spends]
      refine .inr ⟨i,block,hblock,hconf.trans hi,t,ht,?_⟩
      rw [hhash,hsame]
      exact spendsInputOf_iff.mp hspends

/-- Whatever proofs are recorded for a transaction, and whatever is recorded besides: what
`droppedDepth` returns on a view of the chain is at least what it returns there with some of them;
it is zero, or the depth of a block that holds a conflict; and a record's proofs count the same
before and after another one joins them, also the one that an earlier build kept apart. -/
theorem proofs_only_add (depth : ℤ) {file : UnsettledFile} {txid : Hash} {r : UnsettledRecord}
    (hr : file.lookup txid=some r) (calls : List ProofCall) :
    (∃ r', (FileCall.run depth file (calls.map ProofCall.call)).lookup txid = some r' ∧ r'.tx = r.tx ∧
      ∀ (v : WalletView) (d : ℤ), v.droppedDepth r'.tx r'.allProofs = .ok d →
        (∀ qs, (∀ q∈qs, q∈r.allProofs ∨ ∃ c∈calls, c.Records txid q) → ∃ d' ≤ d, v.droppedDepth r'.tx qs = .ok d') ∧
        ∀ blocks, v.Reads blocks →
          CollisionFree (blocks.flatten++r'.allProofs.filterMap fun p => (v.proof p).spender) →
          d = 0 ∨ ConflictAt blocks r'.tx d) ∧ ∀ q out, addProof txid q file = some out →
      ∃ r', out.1.lookup txid = some r' ∧ r'.tx = r.tx ∧ (q ∉ r.allProofs → r'.proof = none) ∧
        ∀ (v : WalletView) (d : ℤ), v.droppedDepth r.tx r.allProofs = .ok d →
          v.droppedDepth r'.tx r'.allProofs = .ok (max d (v.depthOfProof r.tx q)) := by
  obtain ⟨r',hr',htx,hkeeps⟩ := ProofCall.run_keeps hr calls
  refine ⟨⟨r',hr',htx,fun v d hd => ⟨fun qs hqs => ?_, fun blocks hreads hfree => hreads.conflictAt hfree hd⟩⟩,?_⟩
  · obtain ⟨d',hd'⟩ := WalletView.droppedDepth_isOk hd qs
    exact ⟨d',WalletView.droppedDepth_mono hd hd' fun q hq => hkeeps q (hqs q hq), hd'⟩
  · intro q out hadd
    rcases addProof_allProofs hr hadd with ⟨hq,hsame⟩ | ⟨r₁,hr₁,htx₁,hproof,hall⟩
    · refine ⟨r,hsame ▸ hr,rfl,fun hnew => absurd hq hnew, fun v d hd => ?_⟩
      rw [max_eq_left (WalletView.depthOfProof_le hd hq)]
      exact hd
    · refine ⟨r₁,hr₁,htx₁,fun _ => hproof, fun v d hd => ?_⟩
      rw [htx₁,hall,WalletView.droppedDepth_append,hd]
      rfl

end

section Sample

attribute [local instance] sampleHashing

def goodProof : FileProof := ⟨['r','i','v','a','l'],['b']⟩

def badProof : FileProof := ⟨[],['b']⟩

/-- A node on whose main chain the third block from the tip holds the rival of the lost payment. -/
def provenView : WalletView where
  tip := 14
  entries := []
  nodup := no_entries_nodup
  readable _ := true
  proof p := if p = goodProof then ⟨some rivalPayment,some ⟨3,[rivalPayment.txHash]⟩⟩ else ⟨none,none⟩

def provenBlocks : List (List MsgTx) := [[],[],[rivalPayment]]

def singleProofRecord : UnsettledRecord := ⟨lostPayment,0,0,[],some goodProof,false,false⟩

def singleProofFile : UnsettledFile := (∅ : UnsettledFile).insert lostPayment.txHash singleProofRecord

theorem provenView_reads : provenView.Reads provenBlocks where
  mined e he := by cases he
  getblock p answer hanswer hmain := by
    change (if p = goodProof then (_ : ConflictProof) else _).block = _ at hanswer
    split at hanswer
    · cases hanswer
      exact ⟨2,[rivalPayment],rfl,rfl,rfl⟩
    · cases hanswer

/-- A proof that says nothing, recorded after a good one, takes nothing from it. -/
theorem bad_proof_takes_nothing : ∃ r', (FileCall.run 6 singleProofFile
      ([⟨lostPayment.txHash,badProof,.none⟩].map ProofCall.call)).lookup lostPayment.txHash = some r' ∧
      r'.proof = none ∧ provenView.droppedDepth r'.tx r'.allProofs = .ok 3 ∧ ConflictAt provenBlocks r'.tx 3 := by
  have hr : singleProofFile.lookup lostPayment.txHash = some singleProofRecord := AList.lookup_insert ..
  obtain ⟨⟨r',hr',-,hviews⟩,-⟩ := proofs_only_add 6 hr [⟨lostPayment.txHash,badProof,.none⟩]
  have hrecord : r' = { singleProofRecord with proofs := [goodProof,badProof],proof := none } := by
    refine Option.some.inj (hr'.symm.trans ?_)
    decide +kernel
  subst hrecord
  have hdepth : provenView.droppedDepth lostPayment [goodProof,badProof] = .ok 3 := by decide +kernel
  have hfree : CollisionFree (provenBlocks.flatten ++
      [goodProof,badProof].filterMap fun p => (provenView.proof p).spender) := by
    have hall : ∀ t∈provenBlocks.flatten ++
        [goodProof,badProof].filterMap fun p => (provenView.proof p).spender, t = rivalPayment := by
      decide +kernel
    intro t ht u hu _
    rw [hall t ht,hall u hu]
  have hconflict := (hviews provenView 3 hdepth).2 provenBlocks provenView_reads hfree
  exact ⟨_,hr',rfl,hdepth,hconflict.resolve_left (by decide)⟩

end Sample

end DogePeg
