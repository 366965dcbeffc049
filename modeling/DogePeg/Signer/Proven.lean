import DogePeg.Signer.Approval

/-!
# A log past its cutover

Whatever a request asks, it leaves a log past its cutover so, and of its anchors it moves
only that of the chain it signs for, to the coin the signed transaction spends first. A
fence it does not sign.
-/

namespace DogePeg

open Amounts Checks Walk List SigningLog

section

variable [Hashing]

/-! ## What each stage does to the log -/

namespace Signer

omit [Hashing] in
@[simp] theorem write_log (outcome : WriteOutcome) (st : Signer) : (write outcome st).2.log = st.log := by
  cases outcome <;> rfl

omit [Hashing] in
@[simp] theorem writeIf_log (changed : Bool) (outcome : WriteOutcome) (st : Signer) :
    (writeIf changed outcome st).2.log = st.log := by
  cases changed
  · rfl
  · exact write_log outcome st

end Signer

namespace SignerView

variable {v : SignerView} {req : SignRequest} {st st' : Signer} {draft : Draft}

theorem quarantine_log (st : Signer) : (v.quarantine st).2.log = st.log := by
  unfold quarantine
  split
  · rfl
  · dsimp only
    split <;> rfl

theorem learnSigned_log (st : Signer) : (v.learnSigned st).2.log = st.log.learned v.evidence :=
  Signer.writeIf_log ..

omit [Hashing] in
/-- A stage that changes the log and then may fail to write it or to accept it. -/
private theorem modify_write_reads_log {f : SigningLog → SigningLog} {changed : Bool}
    {outcome : WriteOutcome} {g : Signer → Except Refusal Unit} (st : Signer) : ((do
        Signer.modifyLog f
        Signer.writeIf changed outcome
        Stage.reads g : Stage Refusal Signer Unit) st).2.log = f st.log := by
  change (Stage.bind (Signer.writeIf changed outcome) _ { st with log := f st.log }).2.log = _
  have hlog := Signer.writeIf_log changed outcome { st with log := f st.log }
  rcases hw : Signer.writeIf changed outcome { st with log := f st.log } with ⟨_ | u,st₁⟩
  · rw [hw] at hlog
    simpa [Stage.bind,hw] using hlog
  · rw [hw] at hlog
    simpa [Stage.bind,hw,Stage.reads] using hlog

theorem budgetRoom_log (v : SignerView) (req : SignRequest) (d : Draft) (st : Signer) :
    ∃ budget capital, (v.budgetRoom req d st).2.log =
      { st.log with fenceBudget := budget,fenceCapital := capital } := by
  unfold budgetRoom
  split
  · exact ⟨_,_,rfl⟩
  · unfold cutoverBudgetRoom
    split
    · exact ⟨_,_,rfl⟩
    · exact ⟨_,_,modify_write_reads_log st⟩

theorem check_keeps {R : Signer → Signer → Prop} (hrefl : ∀ s, R s s)
    (htrans : ∀ s t u, R s t → R t u → R s u) (hquarantine : Stage.Keeps R v.quarantine)
    (hgate : Stage.Keeps R (v.gate req)) (hlearn : Stage.Keeps R v.learnSigned)
    (hbudget : ∀ d, Stage.Keeps R (v.budgetRoom req d)) : Stage.Keeps R (v.check req) := by
  unfold check
  refine (Stage.Keeps.reads hrefl _).bind htrans fun _ => ?_
  refine hquarantine.bind htrans fun _ => hgate.bind htrans fun _ => hlearn.bind htrans fun _ => ?_
  refine (Stage.Keeps.reads hrefl _).bind htrans fun d => (hbudget d).bind htrans fun _ => ?_
  exact (Stage.Keeps.reads hrefl _).bind htrans fun _ s => hrefl s

theorem handleSign_cases (v : SignerView) (req : SignRequest) (st : Signer) :
    (∃ e, (v.check req st).1 = .error e ∧ v.handleSign req st = (.error e,(v.check req st).2)) ∨
      ∃ draft, v.check req st = (.ok draft,(v.check req st).2) ∧
        (v.handleSign req st).2.log = (v.check req st).2.log.record req.action.key draft.chain req.tx
          draft.value (draft.surplusFee.getD 0) v.unix ∧ ∀ d, (v.handleSign req st).1 = .ok d →
          d = draft ∧ (v.handleSign req st).2.files = [(v.handleSign req st).2.log] := by
  change (∃ e, _ ∧ Stage.bind (v.check req) _ st = _) ∨ ∃ draft, _ ∧ (Stage.bind (v.check req) _ st).2.log = _ ∧
    ∀ d, (Stage.bind (v.check req) _ st).1 = _ → d = draft ∧
      (Stage.bind (v.check req) _ st).2.files = [(Stage.bind (v.check req) _ st).2.log]
  rcases hc : v.check req st with ⟨e | draft,st₁⟩
  · exact .inl ⟨e,rfl,by simp [Stage.bind,hc]⟩
  · refine .inr ⟨draft,rfl,?_⟩
    cases v.disk .record
    all_goals
      simp [Stage.bind,hc,Signer.modifyLog,Stage.modifies,bind,Signer.write,pure,Stage.pure]

end SignerView

/-! ## Past the cutover -/

/-- Two logs that stand in the same place: the cutover, and the lines. -/
structure SamePlace (log log' : SigningLog) : Prop where
  history : log'.history = log.history
  cutover : log'.cutover = log.cutover
  anchors : log'.anchors = log.anchors

omit [Hashing] in
theorem SamePlace.unproven {log log' : SigningLog} (h : SamePlace log log') : log'.unproven = log.unproven := by
  rw [SigningLog.unproven,SigningLog.unproven,h.history,h.cutover]

omit [Hashing] in
theorem SigningLog.cutover_of_not_inCutover {log : SigningLog} (h : log.inCutover=false) (chain : ChainName) :
    log.cutover chain = none := by
  simp only [inCutover,Bool.or_eq_false_iff,Option.isSome_eq_false_iff,Option.isNone_iff_eq_none] at h
  cases chain with
  | dogecoin => exact h.1
  | dogecoinVM => exact h.2

omit [Hashing] in
theorem cutover_eq_none {log : SigningLog} (h : log.unproven=false) : ∀ chain, log.cutover chain = none :=
  SigningLog.cutover_of_not_inCutover (by rw [unproven,Bool.or_assoc,Bool.or_eq_false_iff] at h; exact h.2)

theorem advanceCutover_proven {v : SignerView} {s : PegState} {st : Signer}
    (h : st.log.unproven=false) : advanceCutover v s st = (.ok (),st) := by
  have hnone := cutover_eq_none h
  have hhistory : st.log.history ≠ .unproven := by
    simp only [unproven,Bool.or_eq_false_iff,decide_eq_false_iff_not] at h
    exact h.1.1
  have hafter : ∀ chain, st.log.cutoverAfter s v.bridge chain = st.log.cutover chain := by
    intro chain
    simp [cutoverAfter,cutoverLeft,hnone]
  rw [advanceCutover,if_neg (fun hc => hhistory hc.1),endCutover]
  exact if_pos fun chain _ => hafter chain

namespace SignerView

variable {v : SignerView} {req : SignRequest} {st st' : Signer} {draft : Draft}

theorem gate_proven (h : st.log.unproven=false) : v.gate req st = (.ok (),st) := by
  unfold gate
  split
  · exact advanceCutover_proven h
  · change Stage.bind (advanceCutover v v.state) _ st = _
    simp [Stage.bind,advanceCutover_proven h,Stage.reads,h,ensure]

theorem check_samePlace (v : SignerView) (req : SignRequest) {st : Signer}
    (h : st.log.unproven=false) : SamePlace st.log (v.check req st).2.log := by
  have hrefl (log : SigningLog) : SamePlace log log := ⟨rfl,rfl,rfl⟩
  refine check_keeps (R := fun s t => s.log.unproven = false → SamePlace s.log t.log) (fun s _ => hrefl _)
    ?_ ?_ ?_ ?_ ?_ st h
  · intro s t u hst htu hs
    have hst := hst hs
    have htu := htu (hst.unproven.trans hs)
    exact ⟨htu.history.trans hst.history,htu.cutover.trans hst.cutover,htu.anchors.trans hst.anchors⟩
  · intro s _
    rw [quarantine_log]
    exact hrefl _
  · intro s hs
    rw [gate_proven hs]
    exact hrefl _
  · intro s _
    rw [learnSigned_log]
    exact ⟨rfl,rfl,rfl⟩
  · intro d s _
    obtain ⟨budget,capital,hlog⟩ := budgetRoom_log v req d s
    rw [hlog]
    exact ⟨rfl,rfl,rfl⟩

theorem not_fence {log : SigningLog} {s : PegState} {op : OutPoint} {coins : List OutPoint}
    {fence : Bridge.BuiltFence} (hlog : log.unproven=false)
    (h : v.DraftsFence req log s op draft coins fence) : False := by
  have hcut := h.cutover
  rw [cutover_eq_none hlog] at hcut
  cases hcut

end SignerView

/-! ## What an approval settles -/

/-- The chain an action is settled on. Fences are for either. -/
def ActionKey.chain : ActionKey → Option ChainName
  | .release _ | .cancel _ => some .dogecoinVM
  | .payout _ | .refund _ => some .dogecoin
  | .fence _ => none

def ActionKey.TaggedIn (tx : MsgTx) : ActionKey → Prop
  | .release op => parseRelease tx = some op
  | .cancel op => parseCancel tx = some op
  | .payout txid => parsePayment tx = some txid
  | .refund op => parseRefund tx = some op
  | .fence _ => (parseFence tx).isSome

/-- A transaction for the action is listed on DogecoinVM, or is in a Dogecoin block. -/
def PegState.Settles (s : PegState) : ActionKey → Prop
  | .release op => s.released op ≠ none
  | .cancel op => s.cancelled op ≠ none
  | .payout txid => ¬((s.paid txid).all s.isUnconfirmed = true)
  | .refund op => ¬((s.refunded op).all s.isUnconfirmed = true)
  | .fence _ => False

omit [Hashing] in
theorem ActionKey.TaggedIn.congr {key : ActionKey} {x y : MsgTx} (h : key.TaggedIn x)
    (hout : y.txOut=x.txOut) : key.TaggedIn y := by
  have hdata := opReturnData_congr hout
  cases key
  all_goals simpa only [ActionKey.TaggedIn,parseRelease,parseCancel,parseRefund,parseFence,parsePayment,
      parseOutPointTag,hdata] using h

def SignerView.listed (v : SignerView) : ChainName → List ChainTx
  | .dogecoin => v.nodes.doge.txs
  | .dogecoinVM => v.nodes.vm.txs

namespace SignerView

variable {v : SignerView} {req : SignRequest} {log : SigningLog} {key : ActionKey} {draft : Draft} {op : OutPoint}

section Drafts

variable (hdraft : v.Drafted req log (v.stateFor log key) draft req.action) (hlog : log.unproven=false)

include hdraft hlog

theorem Drafted.chain_eq : req.action.key.chain = some draft.chain := by
  generalize req.action = action at hdraft ⊢
  cases hdraft with
  | release h => rw [h.chain]; rfl
  | cancel h => rw [h.chain]; rfl
  | fence h => exact (not_fence hlog h).elim
  | payout _ h => rw [h.chain]; rfl
  | refund _ h => rw [h.chain]; rfl

theorem Drafted.tagged : req.action.key.TaggedIn draft.want := by
  generalize req.action = action at hdraft ⊢
  cases hdraft with
  | release h =>
    rw [h.want,← h.outPoint]
    change parseRelease _ = _
    rw [parseRelease,(v.bridge.buildRelease_carries _ _).parseOutPointTag,if_pos rfl]
  | cancel h =>
    change parseCancel _ = _
    rw [parseCancel,(v.bridge.buildCancel_carries h.built).parseOutPointTag,if_pos rfl]
  | fence h => exact (not_fence hlog h).elim
  | payout hp h =>
    obtain ⟨-,peg,-,-,rfl⟩ := payoutOf_ok hp
    exact (v.bridge.buildPayout_carries h.built (by simp) (by simp)).parsePayment
  | refund hd h =>
    have hbuilt := h.built
    rw [hd.data] at hbuilt
    change parseRefund _ = _
    rw [parseRefund,(v.bridge.buildPayout_carries hbuilt (by simp [encodeRefund])
      (by simp [encodeRefund])).parseOutPointTag,if_pos rfl]

theorem Drafted.unsettled : ¬v.state.Settles req.action.key := by
  generalize req.action = action at hdraft ⊢
  cases hdraft with
  | release h => exact fun hs => hs h.released
  | cancel h => exact fun hs => hs h.cancelled
  | fence h => exact (not_fence hlog h).elim
  | payout hp _ => exact fun hs => hs (all_of_all_and (payoutOf_ok hp).1)
  | refund hd _ => exact fun hs => hs (all_of_all_and hd.refunded)

theorem Drafted.first : ∃ p, req.tx.spends.head? = some p ∧
    ∃ t∈inBlocks (v.listed draft.chain), ∃ out, (p,out)∈t.tx.outputs := by
  -- the reserve's anchor is a coin of the listing
  have hreserve {a : Utxo} (ha : v.state.reserveAnchor=some a) :
      ∃ t∈inBlocks v.nodes.vm.txs, ∃ out, (a.outPoint,out)∈t.tx.outputs := by
    have hmem := mem_filter.mp (Lineage.anchorIn_mem ha)
    obtain ⟨t,ht,hcoin⟩ := mem_flatMap.mp (mem_of_mem_filter hmem.1)
    obtain ⟨hout,-,hconf⟩ := mem_coinsTo.mp hcoin
    refine ⟨t,mem_inBlocks.mpr ⟨ht,?_⟩,_,hout⟩
    rw [← hconf]
    exact of_decide_eq_true hmem.2
  have hpayment {p : Payment} {inputs : List Utxo} {fee : Int64}
      (h : v.DraftsPayment req (v.stateFor log key) p draft inputs fee) :
      ∃ p, req.tx.spends.head? = some p ∧ ∃ t∈inBlocks v.nodes.doge.txs, ∃ out, (p,out)∈t.tx.outputs := by
    by_cases hfee : 0 < req.fee
    · obtain ⟨r,oldFee,hr,hsame,hpicks⟩ := h.replaces hfee
      -- what is replaced spends a coin, and the coins it spends are in blocks
      have hmem : r∈v.state.unconfirmed := PegState.unconfirmedFor_mem hr
      have hun : v.state.unconfirmed = _ := (v.bridge.payments_spec v.nodes.doge).1
      rw [hun,unconfirmedIn,mem_filter,mem_filter,Bridge.dogeSigned,spendsAny,← hsame] at hmem
      obtain ⟨op,hop,-⟩ := any_eq_true.mp hmem.1.2
      obtain ⟨p,hhead⟩ : ∃ p, req.tx.spends.head? = some p := by
        cases hs : req.tx.spends with
        | nil => simp [hs] at hop
        | cons p rest => exact ⟨p,rfl⟩
      have hp := mem_of_mem_head? hhead
      rw [hpicks.spends,mem_map] at hp
      obtain ⟨u,hu,rfl⟩ := hp
      have hpend : u∈v.state.pendingCoins := PegState.mem_pendingCoins_of_coinsOf (hpicks.mem u hu)
      have hcoin := mem_of_mem_filter ((v.bridge.pendingCoins_perm v.nodes.doge).mem_iff.mp hpend)
      obtain ⟨t,ht,hcoin⟩ := mem_flatMap.mp hcoin
      exact ⟨u.outPoint,hhead,t,ht,_,(mem_coinsWhere.mp hcoin).1⟩
    · obtain ⟨⟨a,ha,hhead⟩,-⟩ := h.fresh hfee
      obtain ⟨u,hu,heq⟩ := Lineage.anchorIn_coin ha
      obtain ⟨t,ht,hcoin⟩ := mem_newLineage_coins.mp hu
      exact ⟨a.outPoint,hhead,t,ht,_,heq ▸ (mem_coinsTo.mp hcoin).1⟩
  generalize req.action = action at hdraft
  cases hdraft with
  | release h => rw [h.chain]; exact ⟨_,h.anchored.2,hreserve h.anchored.1⟩
  | cancel h => rw [h.chain]; exact ⟨_,h.anchored.2,hreserve h.anchored.1⟩
  | fence h => exact (not_fence hlog h).elim
  | payout _ h => rw [h.chain]; exact hpayment h
  | refund _ h => rw [h.chain]; exact hpayment h

end Drafts

theorem check_drafted {st st' : Signer} (hcheck : v.check req st=(.ok draft,st')) (hlog : st.log.unproven=false) :
    draft.want = req.tx ∧ ∃ log, log.unproven = false ∧ (v.stateFor log req.action.key).audit.solvent = true ∧
      v.Drafted req log (v.stateFor log req.action.key) draft req.action := by
  obtain ⟨gated,learnt,ha⟩ := check_ok hcheck
  cases (gate_proven hlog).symm.trans ha.gate
  have hlearnt : learnt.log = st.log.learned v.evidence := by
    rw [← learnSigned_log,ha.learn]
  refine ⟨ha.want,learnt.log,?_,draft_ok ha.drafted⟩
  rw [hlearnt]
  exact hlog

/-- What an approval past the cutover says of the coin spent first: it is in a block, and the
line leads to it from the log's anchor. -/
theorem check_first {st st' : Signer} (hcheck : v.check req st=(.ok draft,st')) (hlog : st.log.unproven=false) :
    ∃ p last, req.tx.spends.head? = some p ∧ st.log.anchors draft.chain = some last ∧
      (∃ t∈inBlocks (v.listed draft.chain), ∃ out, (p,out)∈t.tx.outputs) ∧
      ∃ depth, Leads (newLineage (v.listed draft.chain) v.bridge.script depth).nextCoin last p := by
  obtain ⟨-,log,hproven,-,hdraft⟩ := check_drafted hcheck hlog
  obtain ⟨p,hhead,hmade⟩ := hdraft.first hproven
  have hplace : SamePlace st.log st'.log := by
    have h := check_samePlace v req hlog
    rwa [hcheck] at h
  obtain ⟨gated,learnt,ha⟩ := check_ok hcheck
  have hanchor := ha.anchor
  rw [anchorCheck,hplace.cutover,cutover_eq_none hlog,Option.isSome_none,Bool.and_false,
    if_neg Bool.false_ne_true] at hanchor
  obtain ⟨last,hlast,hlead⟩ := leads_of_anchorMoved hanchor hhead
  refine ⟨p,last,hhead,hplace.anchors ▸ hlast,hmade,?_⟩
  cases hchain : draft.chain with
  | dogecoin =>
    rw [hchain] at hlead
    exact ⟨_,hlead⟩
  | dogecoinVM =>
    rw [hchain] at hlead
    exact ⟨_,hlead⟩

end SignerView

end

end DogePeg
