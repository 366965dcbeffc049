import DogePeg.Quorum.World
import DogePeg.Signer.Solvency

/-!
# One transaction for an action

Whatever quorums sign and whenever it is sent, a chain holds one transaction for an action at
most, and no deposit is both credited and refunded. Two transactions signed with coins of one
line are in order along it; the honest signer of the later one had the earlier one in a block,
and refused.
-/

namespace DogePeg

open Amounts Checks Walk Node List

section

variable [Hashing] {n : ℕ} {S : Setting n} {anchors : ChainName → OutPoint} {w w₀ : World n}
  {s s' : Signed n} {key : ActionKey} {op : OutPoint}

namespace Signed.Sound

theorem drafted (hs : s.Sound S anchors) : s.draft.want = s.req.tx ∧ ∃ log, log.unproven = false ∧
      s.view.Drafted s.req log (s.view.stateFor log s.req.action.key) s.draft s.req.action := by
  obtain ⟨st,hproven,hcheck⟩ := hs.checked
  obtain ⟨hwant,log,hlog,-,hdraft⟩ := SignerView.check_drafted hcheck hproven
  exact ⟨hwant,log,hlog,hdraft⟩

theorem chain_eq (hs : s.Sound S anchors) : s.req.action.key.chain = some s.draft.chain := by
  obtain ⟨-,log,hlog,hdraft⟩ := hs.drafted
  exact hdraft.chain_eq hlog

theorem tagged (hs : s.Sound S anchors) : s.req.action.key.TaggedIn s.req.tx := by
  obtain ⟨hwant,log,hlog,hdraft⟩ := hs.drafted
  exact hwant ▸ hdraft.tagged hlog

theorem unsettled (hs : s.Sound S anchors) : ¬s.view.state.Settles s.req.action.key := by
  obtain ⟨-,log,hlog,hdraft⟩ := hs.drafted
  exact hdraft.unsettled hlog

theorem settles (hs : s.Sound S anchors) (h₀ : Begins S anchors w₀)
    {v : SignerView} {chains : ChainName → List ChainTx} (hshows : Shows v S.script chains)
    (hchains : ∀ c, ChainIn S.txs (chains c)) {t : ChainTx} (ht : t∈chains s.draft.chain)
    (hspends : t.tx.spends=s.req.tx.spends) (hout : t.tx.txOut=s.req.tx.txOut) :
    v.state.Settles s.req.action.key := by
  obtain ⟨p,hhead,-,hline⟩ := hs.first
  have hp : p∈t.tx.spends := hspends ▸ mem_of_mem_head? hhead
  obtain ⟨u,hu,out,hmade⟩ := (hchains _).funded t ht (not_coinbase_of_spends hp hline.index) p hp
  obtain ⟨x,hx,hcoin⟩ := h₀.coin s.draft.chain
  have hpays := hline.pays h₀.apart ((h₀.chains _).known x hx) hcoin (hchains _) hu hmade
  exact hshows.settles hs.chain_eq (hchains _) ht ⟨p,hp,u,hu,hpays⟩ (hs.tagged.congr hout)

end Signed.Sound

variable {C : List ChainTx}

/-- Two transactions of a chain that honest signers signed on it: they are the same, or the
signer of one had the other in a block. -/
theorem World.Sound.order (hsound : w.Sound S anchors) (hU : CollisionFree S.txs) (hs : s∈w.signed)
    (hs' : s'∈w.signed) (hchain : s.draft.chain=s'.draft.chain)
    (hC : ChainIn S.txs C) {t t' : ChainTx} (ht : t∈C) (ht' : t'∈C)
    (htx : s.req.tx=t.tx.unsigned) (htx' : s'.req.tx=t'.tx.unsigned) :
    t = t' ∨ (∃ u∈s'.chains s.draft.chain, u.tx.spends = s.req.tx.spends ∧ u.tx.txOut = s.req.tx.txOut) ∨
      ∃ u∈s.chains s'.draft.chain, u.tx.spends = s'.req.tx.spends ∧ u.tx.txOut = s'.req.tx.txOut := by
  obtain ⟨p,hhead,hmakes,hline⟩ := (hsound.signed s hs).first
  obtain ⟨p',hhead',hmakes',hline'⟩ := (hsound.signed s' hs').first
  have hspends : s.req.tx.spends = t.tx.spends := by rw [htx,MsgTx.unsigned_spends]
  have hspends' : s'.req.tx.spends = t'.tx.spends := by rw [htx',MsgTx.unsigned_spends]
  have hout : s.req.tx.txOut = t.tx.txOut := by rw [htx,MsgTx.unsigned_txOut]
  have hout' : s'.req.tx.txOut = t'.tx.txOut := by rw [htx',MsgTx.unsigned_txOut]
  rw [← hchain] at hline' hmakes' ⊢
  rcases hline.order hU hC hline' ht (hspends ▸ mem_of_mem_head? hhead) ht'
    (hspends' ▸ mem_of_mem_head? hhead') with heq | hseen | hseen
  · exact .inl heq
  · obtain ⟨u,hu,hstrip⟩ := hseen _ ((hsound.signed s' hs').chains _) hmakes'
    exact .inr (.inl ⟨u,hu,(spends_eq_of_strip hstrip).trans hspends.symm,
      (txOut_eq_of_strip hstrip).trans hout.symm⟩)
  · obtain ⟨u,hu,hstrip⟩ := hseen _ ((hsound.signed s hs).chains _) hmakes
    exact .inr (.inr ⟨u,hu,(spends_eq_of_strip hstrip).trans hspends'.symm,
      (txOut_eq_of_strip hstrip).trans hout'.symm⟩)

/-- Of the transactions that gathered signatures for one action, a chain holds one at most. -/
theorem settled_once (h₀ : Begins S anchors w₀) (h : Reaches S w₀ w) {C : List ChainTx}
    (hC : ChainIn S.txs C) {T₁ T₂ : ChainTx} (hT₁ : T₁∈C) (hT₂ : T₂∈C)
    (hg₁ : w.Gathered S (· = key) T₁.tx) (hg₂ : w.Gathered S (· = key) T₂.tx) : T₁ = T₂ := by
  have hsound := h.sound h₀
  obtain ⟨s₁,hs₁,htx₁,hkey₁⟩ := hg₁.honest h₀.few
  obtain ⟨s₂,hs₂,htx₂,hkey₂⟩ := hg₂.honest h₀.few
  have h₁ := hsound.signed s₁ hs₁
  have h₂ := hsound.signed s₂ hs₂
  have hchain : s₁.draft.chain = s₂.draft.chain := by
    have hc₁ := h₁.chain_eq
    rw [hkey₁,← hkey₂,h₂.chain_eq,Option.some.injEq] at hc₁
    exact hc₁.symm
  rcases hsound.order h₀.apart hs₁ hs₂ hchain hC hT₁ hT₂ htx₁ htx₂ with
    heq | ⟨u,hu,hspends,hout⟩ | ⟨u,hu,hspends,hout⟩
  · exact heq
  · have hsettled := h₁.settles h₀ h₂.shows h₂.chains hu hspends hout
    exact absurd (hkey₂ ▸ hkey₁ ▸ hsettled) h₂.unsettled
  · have hsettled := h₂.settles h₀ h₁.shows h₁.chains hu hspends hout
    exact absurd (hkey₁ ▸ hkey₂ ▸ hsettled) h₁.unsettled

/-! ## Credit and refund -/

/-- What is known of each view: no personal deposit address is the peg's own, and everything
listed is one of the transactions there are. -/
structure Setting.Plain (S : Setting n) : Prop where
  apart : ∀ v, S.views v → v.bridge.depositDest v.bridge.script = none
  known : ∀ v, S.views v → ∀ c, ∀ t∈v.listed c, t.tx∈S.txs

omit [Hashing] in
theorem key_of_parseCancel {tx : MsgTx} (htag : key.TaggedIn tx) (h : parseCancel tx=some op) : key = .cancel op := by
  have hne {a : Tag} {x : OutPoint} (ha : parseOutPointTag tx a=some x) : a.bytes = Tag.cancel.bytes :=
    parseOutPointTag_tag ha h
  cases key with
  | release x => exact absurd (hne htag) (by decide)
  | refund x => exact absurd (hne htag) (by decide)
  | fence x =>
    obtain ⟨y,hy⟩ := Option.isSome_iff_exists.mp htag
    exact absurd (hne hy) (by decide)
  | payout txid =>
    have hnone := parsePayment_of_outPointTag h
    rw [show parsePayment tx = some txid from htag] at hnone
    cases hnone
  | cancel x =>
    have hx : parseCancel tx = some x := htag
    rw [h,Option.some.injEq] at hx
    rw [hx]

theorem SpendsScript.of_tx {U : List MsgTx} {script : Script} {C C' : List ChainTx} {t t' : ChainTx}
    (hU : CollisionFree U) (hC : ChainIn U C) (hC' : ChainIn U C') (h : SpendsScript script C t.tx)
    (ht' : t'∈C') (heq : t'.tx=t.tx) : SpendsScript script C' t'.tx := by
  obtain ⟨op,hop,u,hu,hcoin⟩ := h
  rw [← heq] at hop
  have hidx := (makes_of_coinPoints hu hcoin).index
  obtain ⟨u',hu',out,hout⟩ := hC'.funded t' ht' (not_coinbase_of_spends hop hidx) op hop
  obtain ⟨out',hout',-⟩ := mem_coinPoints.mp hcoin
  have hstrip := strip_eq_of_output hU (hC'.known u' hu') (hC.known u hu) hout hout'
  exact ⟨op,hop,u',hu',coinPoints_eq_of_strip hstrip ▸ hcoin⟩

theorem Signed.Sound.cancellation (hs : s.Sound S anchors) (hplain : S.Plain)
    (hU : CollisionFree S.txs) (h : s.view.state.cancelled op=some true) :
    ∃ X∈s.chains .dogecoinVM, parseCancel X.tx = some op ∧ SpendsScript S.script (s.chains .dogecoinVM) X.tx := by
  change s.view.bridge.cancelled s.view.nodes.vm.txs op = some true at h
  unfold Bridge.cancelled at h
  split at h
  · cases h
  · rw [Option.some.injEq,any_eq_true] at h
    obtain ⟨X,hX,hpos⟩ := h
    rw [mem_filter,Bool.and_eq_true,decide_eq_true_eq] at hX
    obtain ⟨hlisted,hsigned,hparse⟩ := hX
    have hmem := hs.shows.listed .dogecoinVM X (mem_inBlocks.mpr ⟨hlisted,of_decide_eq_true hpos⟩)
    refine ⟨X,hmem,hparse,?_⟩
    rw [Bridge.vmSigned,Bool.and_eq_true,Bool.not_eq_true',spendsAny,any_eq_true] at hsigned
    obtain ⟨hcb,op',hop',hout⟩ := hsigned
    obtain ⟨u,hu,hcoin⟩ := mem_flatMap.mp (of_decide_eq_true hout)
    obtain ⟨u',hu',out,hmade⟩ := (hs.chains _).funded X hmem hcb op' hop'
    obtain ⟨out',hout',-⟩ := mem_coinPoints.mp hcoin
    have hstrip := strip_eq_of_output hU ((hs.chains _).known u' hu')
      (hplain.known _ hs.admits .dogecoinVM u hu) hmade hout'
    rw [hs.shows.script_eq] at hcoin
    exact ⟨op',hop',u',hu',coinPoints_eq_of_strip hstrip ▸ hcoin⟩

/-- A deposit that one view credits names a destination in every view that lists it. -/
theorem hasDest {v v' : SignerView} (hadmits : S.views v) (hadmits' : S.views v') (hplain : S.Plain)
    (hU : CollisionFree S.txs) (hscript : v.bridge.script=v'.bridge.script) {d d' : Deposit}
    (hd : d∈v.bridge.allDeposits v.nodes.doge.txs) (hvalid : d.valid=true)
    (hd' : d'∈v'.bridge.allDeposits v'.nodes.doge.txs) (hop : d'.outPoint=d.outPoint) : d'.dest ≠ none := by
  obtain ⟨t,ht,hdep⟩ := mem_flatMap.mp hd
  obtain ⟨⟨o,out⟩,hout,hdep⟩ := mem_filterMap.mp hdep
  obtain ⟨t',ht',hdep'⟩ := mem_flatMap.mp hd'
  obtain ⟨⟨o',out'⟩,hout',hdep'⟩ := mem_filterMap.mp hdep'
  have ho : d.outPoint = o := (v.bridge.depositOf_eq hdep).1
  have ho' : d'.outPoint = o' := (v'.bridge.depositOf_eq hdep').1
  obtain rfl : o' = o := by rw [← ho,← ho',hop]
  -- both views list the same output of the same transaction
  have hstrip := strip_eq_of_output hU (hplain.known _ hadmits' .dogecoin t' ht')
    (hplain.known _ hadmits .dogecoin t ht) hout' hout
  obtain rfl : out' = out := by
    rw [outputs_eq_of_strip hstrip] at hout'
    have hat := t.tx.outputAt_eq_some hout'
    rw [t.tx.outputAt_eq_some hout,Option.some.injEq] at hat
    exact hat.symm
  unfold Bridge.depositOf at hdep hdep'
  cases hdest' : v'.bridge.depositDest out'.pkScript with
  | some dest =>
    simp only [hdest',Option.some.injEq] at hdep'
    subst hdep'
    exact Option.some_ne_none _
  | none =>
    simp only [hdest'] at hdep'
    split at hdep'
    · cases hdep'
    · next hcase =>
      have hpeg : out'.pkScript = v.bridge.script := by
        simp only [Bool.or_eq_true,decide_eq_true_eq,not_or,not_not,ne_eq] at hcase
        exact hcase.1.2.trans hscript.symm
      have hdest : v.bridge.depositDest out'.pkScript = none := hpeg ▸ hplain.apart v hadmits
      simp only [hdest] at hdep
      split at hdep
      · cases hdep
      · rw [Option.some.injEq] at hdep hdep'
        subst hdep hdep'
        have htag : parseDestinationTag t'.tx .deposit = parseDestinationTag t.tx .deposit := by
          simp only [parseDestinationTag,opReturnData_congr (txOut_eq_of_strip hstrip)]
        intro hnone
        have hnone : parseDestinationTag t'.tx .deposit = none := hnone
        have hvalid : (parseDestinationTag t.tx .deposit).any (v.bridge.creditable · out'.value) = true := hvalid
        rw [← htag,hnone] at hvalid
        cases hvalid

namespace Signed.Sound

theorem release (hs : s.Sound S anchors) (hkey : s.req.action.key = .release op) : ¬s.view.state.Settles (.cancel op) ∧
      ∃ d∈s.view.bridge.allDeposits s.view.nodes.doge.txs, d.outPoint = op ∧ d.valid = true := by
  obtain ⟨-,log,-,hdraft⟩ := hs.drafted
  generalize s.req.action = action at hkey hdraft
  cases hdraft with
  | release h =>
    cases hkey
    obtain ⟨hmem,hcredit⟩ := mem_filter.mp h.deposit
    exact ⟨fun hsettled => hsettled h.cancelled, _, mem_of_mem_filter hmem, h.outPoint,
      (Bool.and_eq_true_iff.mp hcredit).1⟩
  | _ => cases hkey

theorem cancel (hs : s.Sound S anchors) (hkey : s.req.action.key = .cancel op) :
    ¬s.view.state.Settles (.release op) := by
  obtain ⟨-,log,-,hdraft⟩ := hs.drafted
  generalize s.req.action = action at hkey hdraft
  cases hdraft with
  | cancel h =>
    cases hkey
    exact fun hsettled => hsettled h.released
  | _ => cases hkey

theorem refund (hs : s.Sound S anchors) (hkey : s.req.action.key = .refund op) :
    ∃ d∈s.view.bridge.allDeposits s.view.nodes.doge.txs, d.outPoint = op ∧
      (d.dest = none ∨ s.view.state.cancelled op = some true) := by
  obtain ⟨-,log,-,hdraft⟩ := hs.drafted
  generalize s.req.action = action at hkey hdraft
  cases hdraft with
  | @refund _ _ _ d _ _ hd _ =>
    cases hkey
    refine ⟨d,?_,hd.outPoint,hd.cancelled⟩
    have hmem := hd.deposit
    split at hmem
    · exact mem_of_mem_filter hmem
    · exact mem_of_mem_filter (mem_of_mem_filter hmem)
  | _ => cases hkey

end Signed.Sound

/-- No chain holds a cancellation of a deposit and a release of it that honest signers signed. -/
theorem World.Sound.not_cancelled (hsound : w.Sound S anchors) (h₀ : Begins S anchors w₀)
    {L X : ChainTx} (hL : L∈w.chains .dogecoinVM) (hs : s∈w.signed)
    (hkey : s.req.action.key = .release op) (htx : s.req.tx=L.tx.unsigned)
    (hX : X∈w.chains .dogecoinVM) (hparse : parseCancel X.tx=some op)
    (hspends : SpendsScript S.script (w.chains .dogecoinVM) X.tx) : False := by
  have hsL := hsound.signed s hs
  have hchain {s : Signed n} (hs : s.Sound S anchors)
      (hkey : s.req.action.key.chain=some .dogecoinVM) : s.draft.chain = .dogecoinVM := by
    rw [hs.chain_eq,Option.some.injEq] at hkey
    exact hkey
  have hcL : s.draft.chain = .dogecoinVM := hchain hsL (by rw [hkey]; rfl)
  -- the signer of the release had no cancellation listed
  have hnot (Y : ChainTx) (hY : Y∈s.chains .dogecoinVM) (hpY : parseCancel Y.tx=some op)
      (hspY : SpendsScript S.script (s.chains .dogecoinVM) Y.tx) : False :=
    (hsL.release hkey).1 (hsL.shows.settles rfl (hsL.chains _) hY hspY hpY)
  rcases hsound.unforged .dogecoinVM X hX hspends with ⟨X₀,hX₀,heq⟩ | hgathered
  · -- a cancellation there at the start was there when the release was signed
    obtain ⟨Y,hY,heq',-⟩ := (hsound.seen s hs).1 X₀ hX₀
    have hYX : Y.tx = X.tx := heq'.trans heq
    exact hnot Y hY (hYX ▸ hparse) (hspends.of_tx h₀.apart (hsound.chains _) (hsL.chains _) hY hYX)
  · obtain ⟨x,hx,htxX,-⟩ := hgathered.honest h₀.few
    have hsX := hsound.signed x hx
    have hkeyX : x.req.action.key = .cancel op :=
      key_of_parseCancel (hsX.tagged.congr (y := X.tx) (by rw [htxX,MsgTx.unsigned_txOut])) hparse
    have hcX : x.draft.chain = .dogecoinVM := hchain hsX (by rw [hkeyX]; rfl)
    rcases hsound.order h₀.apart hs hx (hcL.trans hcX.symm) (hsound.chains _) hL hX htx htxX with
      rfl | ⟨u,hu,hsp,hout⟩ | ⟨u,hu,hsp,hout⟩
    · -- one transaction does not carry both tags
      have htag := hsL.tagged.congr (y := L.tx) (by rw [htx,MsgTx.unsigned_txOut])
      rw [key_of_parseCancel htag hparse] at hkey
      cases hkey
    · -- the signer of the cancellation had the release in a block
      have hsettled := hsL.settles h₀ hsX.shows hsX.chains hu hsp hout
      exact hsX.cancel hkeyX (hkey ▸ hsettled)
    · -- the signer of the release had the cancellation in a block
      have hsettled := hsX.settles h₀ hsL.shows hsL.chains hu hsp hout
      exact (hsL.release hkey).1 (hkeyX ▸ hsettled)

/-- A deposit with a release in a DogecoinVM block has no fully signed refund. -/
theorem never_credited_and_refunded (h₀ : Begins S anchors w₀) (h : Reaches S w₀ w) (hplain : S.Plain) (op : OutPoint) :
    ¬((∃ L∈w.chains .dogecoinVM, w.Gathered S (· = .release op) L.tx) ∧ ∃ R, w.Gathered S (· = .refund op) R) := by
  rintro ⟨⟨L,hL,hgL⟩,R,hgR⟩
  have hsound := h.sound h₀
  obtain ⟨s,hs,htx,hkey⟩ := hgL.honest h₀.few
  obtain ⟨r,hr,-,hkeyR⟩ := hgR.honest h₀.few
  have hsL := hsound.signed s hs
  have hsR := hsound.signed r hr
  obtain ⟨-,d,hd,hop,hvalid⟩ := hsL.release hkey
  obtain ⟨d',hd',hop',hdest | hcancelled⟩ := hsR.refund hkeyR
  · exact hasDest hsL.admits hsR.admits hplain h₀.apart
      (hsL.shows.script_eq.trans hsR.shows.script_eq.symm) hd hvalid hd' (hop'.trans hop.symm) hdest
  · obtain ⟨X,hX,hparse,hspends⟩ := hsR.cancellation hplain h₀.apart hcancelled
    obtain ⟨Y,hY,heq,-⟩ := (hsound.seen r hr).2 X hX
    exact hsound.not_cancelled h₀ hL hs hkey htx hY (heq ▸ hparse)
      (hspends.of_tx h₀.apart (hsR.chains _) (hsound.chains _) hY heq)

/-- On a chain that has both coins, the line leads from one honest signer's anchor to another's. -/
theorem anchors_agree (h₀ : Begins S anchors w₀) (h : Reaches S w₀ w) {i j : Fin n} (hi : i∈S.honest)
    (hj : j∈S.honest) {c : ChainName} {C : List ChainTx} (hC : ChainIn S.txs C) {x y : OutPoint} (hx : Makes C x)
    (hy : Makes C y) (hxi : (w.signers i).log.anchors c=some x) (hyj : (w.signers j).log.anchors c=some y) :
    Leads (lineOf S.script C) x y ∨ Leads (lineOf S.script C) y x := by
  obtain ⟨_,hi,hline⟩ := (h.sound h₀).anchored i hi c
  obtain ⟨_,hj,hline'⟩ := (h.sound h₀).anchored j hj c
  cases hxi.symm.trans hi
  cases hyj.symm.trans hj
  exact (hline.leads C hC hx).total (hline'.leads C hC hy)

/-- A deposit with a fully signed release and a cancellation in DogecoinVM blocks. -/
def World.Contradicts (w : World n) (S : Setting n) (op : OutPoint) : Prop :=
  (∃ L∈w.chains .dogecoinVM, w.Gathered S (· = .release op) L.tx) ∧ ∃ X∈w.chains .dogecoinVM,
    SpendsScript S.script (w.chains .dogecoinVM) X.tx ∧ parseCancel X.tx = some op

theorem never_released_and_cancelled (h₀ : Begins S anchors w₀) (h : Reaches S w₀ w) : ¬w.Contradicts S op := by
  rintro ⟨⟨L,hL,hgL⟩,X,hX,hspends,hparse⟩
  obtain ⟨s,hs,htx,hkey⟩ := hgL.honest h₀.few
  exact (h.sound h₀).not_cancelled h₀ hL hs hkey htx hX hparse hspends

end

section Sample

attribute [local instance] sampleHashing

/-- Two deposits of 50, and the coinbase they are paid from. -/
def outsideFunds : MsgTx := sampleTx ⟨0,0xffffffff⟩ [⟨50,[2]⟩,⟨50,[2]⟩]

def fundedDeposit : MsgTx :=
  { sampleDeposit with txIn := [sampleInput (outsideFunds.outPoint 0)] }

def laterDeposit : MsgTx :=
  { sampleDeposit with txIn := [sampleInput (outsideFunds.outPoint 1)] }

def fundedCredit : Deposit := ⟨fundedDeposit.outPoint 0,50,some ⟨.p2pkh,0⟩,true,8,0⟩

def laterCredit : Deposit := ⟨laterDeposit.outPoint 0,50,some ⟨.p2pkh,0⟩,true,7,0⟩

/-- A second coin of the reserve. -/
def moreFunds : MsgTx := { sampleFunds with txOut := [⟨3000000,sampleBridge.script⟩] }

def moreCoin : Utxo := ⟨moreFunds.outPoint 0,3000000,sampleBridge.script,8⟩

def fundedHistory : History where
  vm := .of [⟨sampleFunds,9,0⟩,⟨moreFunds,8,0⟩]
  doge := .of [⟨fundedDeposit,8,0⟩,⟨laterDeposit,7,0⟩]
  dogeConflicted := []

def fundedView : SignerView := sampleView sampleBridge fundedHistory

def fundedAnchors : ChainName → OutPoint
  | .dogecoin => fundedCredit.outPoint
  | .dogecoinVM => sampleCoin.outPoint

def fundedSigner : Signer := sampleSigner fun c => some (fundedAnchors c)

def releaseFrom (coins : List Utxo) (d : Deposit) : SignRequest :=
  ⟨some .dogecoinVM,.release d.outPoint,sampleBridge.buildRelease coins d,0⟩

/-- Another release of the first deposit, and one of the second from what the first leaves. -/
def otherRelease : SignRequest := releaseFrom [sampleCoin,moreCoin] fundedCredit

def changeCoin : Utxo := ⟨(minedRelease fundedCredit).tx.outPoint 1,1999950,sampleBridge.script,1⟩

def nextRelease : SignRequest := releaseFrom [changeCoin] laterCredit

/-- The chains once the first release is in a block. -/
def laterHistory : History where
  vm := .of [⟨sampleFunds,9,0⟩,⟨moreFunds,8,0⟩,minedRelease fundedCredit]
  doge := fundedHistory.doge
  dogeConflicted := []

def laterView : SignerView := sampleView sampleBridge laterHistory

theorem three_signers : NeZero 3 := ⟨by decide⟩

attribute [local instance] three_signers

/-- Three signers, two of them honest, of whom two sign. -/
def sampleSetting : Setting 3 where
  txs := [sampleFunds,moreFunds,outsideFunds,fundedDeposit,laterDeposit,(minedRelease fundedCredit).tx,
    otherRelease.tx,nextRelease.tx]
  script := sampleBridge.script
  threshold := 2
  honest := {0,1}
  views v := v = fundedView ∨ v = laterView
  start
    | .dogecoin => ⟨outsideFunds,20,0⟩::fundedHistory.doge.txs
    | .dogecoinVM => fundedHistory.vm.txs

def laterChains : ChainName → List ChainTx
  | .dogecoin => sampleSetting.start .dogecoin
  | .dogecoinVM => laterHistory.vm.txs

def sampleWorld : World 3 := ⟨sampleSetting.start,fun _ => fundedSigner, []⟩

theorem laterChains_chainIn (c : ChainName) : ChainIn sampleSetting.txs (laterChains c) := by
  cases c with
  | dogecoin =>
    exact ChainIn.of_listed (by decide +kernel) (by decide +kernel) (by decide +kernel) (by decide +kernel)
  | dogecoinVM =>
    exact ChainIn.of_listed (by decide +kernel) (by decide +kernel) (by decide +kernel) (by decide +kernel)

theorem sampleWorld_begins : Begins sampleSetting fundedAnchors sampleWorld where
  few := by decide
  apart := .of_nodup (by decide +kernel)
  chains_eq := rfl
  chains c := by
    cases c with
    | dogecoin => exact laterChains_chainIn .dogecoin
    | dogecoinVM =>
      exact ChainIn.of_listed (by decide +kernel) (by decide +kernel) (by decide +kernel) (by decide +kernel)
  coin c := by
    cases c with
    | dogecoin => exact ⟨⟨fundedDeposit,8,0⟩,by decide +kernel, by decide +kernel⟩
    | dogecoinVM => exact ⟨⟨sampleFunds,9,0⟩,by decide +kernel, by decide +kernel⟩
  proven _ _ := rfl
  anchored _ _ _ := rfl
  unsigned := rfl

/-- The coinbase that the views leave out neither pays nor spends the script. -/
theorem shows_of_listed {v : SignerView} {chains : ChainName → List ChainTx} (hscript : v.bridge=sampleBridge)
    (hlisted : ∀ c, ∀ t∈inBlocks (v.listed c), t∈chains c) (hvm : ∀ t∈chains .dogecoinVM, t∈v.listed .dogecoinVM)
    (hdoge : chains .dogecoin=sampleSetting.start .dogecoin)
    (hfunded : ∀ t∈fundedHistory.doge.txs, t∈v.listed .dogecoin) : Shows v sampleSetting.script chains where
  script_eq := by
    rw [hscript]
    rfl
  listed := hlisted
  complete c t ht htouch := by
    cases c with
    | dogecoinVM => exact hvm t ht
    | dogecoin =>
      rw [hdoge] at ht htouch
      rcases mem_cons.mp ht with rfl | ht
      · rcases htouch with hpays | ⟨op,hop,u,hu,hcoin⟩
        · exact absurd (by decide +kernel) hpays
        · have hnot : ∀ op∈outsideFunds.spends, ∀ u∈sampleSetting.start .dogecoin,
              op ∉ coinPoints sampleSetting.script u.tx := by decide +kernel
          exact absurd hcoin (hnot op hop u hu)
      · exact hfunded t ht

/-- The first signer signs one release of the deposit and the second one another. -/
def answeredWorld : World 3 :=
  (sampleWorld.answer 0 fundedView (releaseRequest fundedCredit)).answer 1 fundedView otherRelease

theorem answeredWorld_gathered : answeredWorld.Gathered sampleSetting (· = .release fundedCredit.outPoint)
      (minedRelease fundedCredit).tx ∧
    answeredWorld.Gathered sampleSetting (· = .release fundedCredit.outPoint) otherRelease.tx := by
  have hfirst : (fundedView.handleSign (releaseRequest fundedCredit) fundedSigner).1.isOk = true := by decide +kernel
  have hother : (fundedView.handleSign otherRelease fundedSigner).1.isOk = true := by decide +kernel
  have hunsigned : (releaseRequest fundedCredit).tx = (minedRelease fundedCredit).tx.unsigned :=
    (newTx_unsigned ..).symm
  have hunsigned' : otherRelease.tx = otherRelease.tx.unsigned := (newTx_unsigned ..).symm
  constructor
  · refine ⟨{0,2},by decide, fun i hi hhonest => ?_⟩
    obtain rfl : i = 0 := by revert i; decide
    obtain ⟨s,hs,hsigner,hreq⟩ := World.exists_signed_answer (w := sampleWorld) (i := 0) hfirst
    refine ⟨s,World.answer_signed _ 1 fundedView otherRelease s hs,hsigner,?_⟩
    rw [hreq]
    exact ⟨hunsigned,rfl⟩
  · refine ⟨{1,2},by decide, fun i hi hhonest => ?_⟩
    obtain rfl : i = 1 := by revert i; decide
    obtain ⟨s,hs,hsigner,hreq⟩ := World.exists_signed_answer
      (w := sampleWorld.answer 0 fundedView (releaseRequest fundedCredit)) (i := 1) hother
    refine ⟨s,hs,hsigner,?_⟩
    rw [hreq]
    exact ⟨hunsigned',rfl⟩

/-- Then the first one is mined. -/
def minedWorld : World 3 := { answeredWorld with chains := laterChains }

/-- The second signer signs the next release. -/
def signedWorld : World 3 := minedWorld.answer 1 laterView nextRelease

theorem signedWorld_reached : Reaches sampleSetting sampleWorld signedWorld := by
  have hshows : Shows fundedView sampleSetting.script sampleSetting.start :=
    shows_of_listed rfl (fun c => by cases c <;> decide +kernel) (fun _ ht => ht) rfl fun _ ht => ht
  have hlater : Shows laterView sampleSetting.script laterChains :=
    shows_of_listed rfl (fun c => by cases c <;> decide +kernel) (fun _ ht => ht) rfl fun _ ht => ht
  refine .tail (.tail (.tail (.single (.request _ (by decide) (.inl rfl) hshows))
    (.request otherRelease (by decide) (.inl rfl) hshows)) (.blocks laterChains laterChains_chainIn ?_ ?_))
    (.request nextRelease (by decide) (.inr rfl) hlater)
  · exact fun t ht => ⟨t,mem_append_left [minedRelease fundedCredit] ht,rfl,le_rfl⟩
  · intro c t ht _
    cases c with
    | dogecoin => exact .inl ⟨t,ht,rfl⟩
    | dogecoinVM =>
      rcases mem_append.mp (show t ∈ fundedHistory.vm.txs++[minedRelease fundedCredit] from ht) with ht | ht
      · exact .inl ⟨t,ht,rfl⟩
      · obtain rfl := mem_singleton.mp ht
        obtain ⟨Q,hcard,hQ⟩ := answeredWorld_gathered.1
        refine .inr ⟨Q,hcard,fun i hi hhonest => ?_⟩
        obtain ⟨s,hs,hsigner,htx,-⟩ := hQ i hi hhonest
        exact ⟨s,hs,hsigner,htx,trivial⟩

theorem signedWorld_gathered {T : MsgTx}
    (h : answeredWorld.Gathered sampleSetting (· = .release fundedCredit.outPoint) T) :
    signedWorld.Gathered sampleSetting (· = .release fundedCredit.outPoint) T := by
  have hmined : minedWorld.signed = answeredWorld.signed := by rw [minedWorld]
  unfold signedWorld
  refine h.mono fun s hs => minedWorld.answer_signed 1 laterView nextRelease s ?_
  rwa [hmined]

/-- No chain holds both releases. -/
theorem signedWorld_settled_once : ¬∃ C, ChainIn sampleSetting.txs C ∧
    (∃ t∈C, t.tx = (minedRelease fundedCredit).tx) ∧ ∃ t∈C, t.tx = otherRelease.tx := by
  rintro ⟨C,hC,⟨t,ht,htx⟩,u,hu,hux⟩
  have hsame : t = u := settled_once sampleWorld_begins signedWorld_reached hC ht hu
    (htx ▸ signedWorld_gathered answeredWorld_gathered.1) (hux ▸ signedWorld_gathered answeredWorld_gathered.2)
  rw [← hsame,htx] at hux
  exact absurd hux (by decide +kernel)

theorem sampleSetting_plain : sampleSetting.Plain where
  apart v hv := by rcases hv with rfl | rfl <;> rfl
  known v hv c := by rcases hv with rfl | rfl <;> cases c <;> decide +kernel

theorem mined_in_signedWorld : ∃ L∈signedWorld.chains .dogecoinVM,
    signedWorld.Gathered sampleSetting (· = .release fundedCredit.outPoint) L.tx :=
  ⟨minedRelease fundedCredit,mem_append_right fundedHistory.vm.txs (mem_singleton_self _),
    signedWorld_gathered answeredWorld_gathered.1⟩

theorem signedWorld_not_refunded :
    ¬∃ R, signedWorld.Gathered sampleSetting (· = .refund fundedCredit.outPoint) R := fun hR =>
  never_credited_and_refunded sampleWorld_begins signedWorld_reached sampleSetting_plain _ ⟨mined_in_signedWorld,hR⟩

theorem signedWorld_not_contradicts : ¬∃ X∈signedWorld.chains .dogecoinVM,
    SpendsScript sampleSetting.script (signedWorld.chains .dogecoinVM) X.tx ∧
      parseCancel X.tx = some fundedCredit.outPoint := fun hX =>
  never_released_and_cancelled sampleWorld_begins signedWorld_reached ⟨mined_in_signedWorld,hX⟩

/-- The second signer's anchor has moved to what the release left. -/
theorem signedWorld_anchors_agree : sampleCoin.outPoint ≠ changeCoin.outPoint ∧
    (let line := lineOf sampleSetting.script (laterChains .dogecoinVM)
    Leads line sampleCoin.outPoint changeCoin.outPoint ∨ Leads line changeCoin.outPoint sampleCoin.outPoint) := by
  have hcoin : sampleCoin.outPoint∈coinPoints sampleBridge.script sampleFunds := by decide +kernel
  have hchange : changeCoin.outPoint∈coinPoints sampleBridge.script (minedRelease fundedCredit).tx := by decide +kernel
  have hx : Makes (laterChains .dogecoinVM) sampleCoin.outPoint :=
    makes_of_coinPoints (t := ⟨sampleFunds,9,0⟩) (by decide +kernel) hcoin
  have hy : Makes (laterChains .dogecoinVM) changeCoin.outPoint :=
    makes_of_coinPoints (t := minedRelease fundedCredit) (by decide +kernel) hchange
  exact ⟨by decide +kernel, anchors_agree sampleWorld_begins signedWorld_reached (i := 0) (j := 1) (by decide)
    (by decide) (laterChains_chainIn .dogecoinVM) (c := .dogecoinVM) hx hy (by decide +kernel) (by decide +kernel)⟩

end Sample

end DogePeg
