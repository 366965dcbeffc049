import DogePeg.Quorum.Chain
import Mathlib.Data.Fintype.Card

/-!
# Signers, a coordinator and two chains

Honest signers answer requests one at a time, each from its own log and view of the chains. The
coordinator may ask anyone for anything and send what it gets later; the other signers sign what they
like. Blocks extend DogecoinVM and may replace Dogecoin's; what spends a coin of the set in them has been
signed by `threshold` signers, or was there at the start.
-/

namespace DogePeg

open Amounts Checks Walk Node List Function

section

variable [Hashing]

/-! ## The world -/

/-- A transaction that spends an output to `script` of the chain `C`. -/
def SpendsScript (script : Script) (C : List ChainTx) (tx : MsgTx) : Prop :=
  ∃ op∈tx.spends, ∃ u∈C, op∈coinPoints script u.tx

/-- A view of the chains: the nodes list what is in their blocks, and everything there that
pays or spends the set's script, beside any unconfirmed transactions. -/
structure Shows (v : SignerView) (script : Script) (chains : ChainName → List ChainTx) : Prop where
  script_eq : v.bridge.script = script
  listed : ∀ c, ∀ t∈inBlocks (v.listed c), t∈chains c
  complete : ∀ c, ∀ t∈chains c, coinPoints script t.tx ≠ [] ∨ SpendsScript script (chains c) t.tx →
    t ∈ v.listed c

structure Signed (n : ℕ) where
  signer : Fin n
  view : SignerView
  chains : ChainName → List ChainTx
  req : SignRequest
  draft : Draft

structure World (n : ℕ) where
  chains : ChainName → List ChainTx
  signers : Fin n → Signer
  signed : List (Signed n)

/-- What stays fixed: the transactions there are, the set's script and threshold, the honest
signers, what holds of each view they answer from, and the chains at the start. -/
structure Setting (n : ℕ) where
  txs : List MsgTx
  script : Script
  threshold : ℕ
  honest : Finset (Fin n)
  views : SignerView → Prop
  start : ChainName → List ChainTx

variable {n : ℕ}

def World.signedAfter (w : World n) (i : Fin n) (v : SignerView) (req : SignRequest) :
    Except Refusal Draft → List (Signed n)
  | .ok draft => ⟨i,v,w.chains,req,draft⟩::w.signed
  | .error _ => w.signed

def World.answer (w : World n) (i : Fin n) (v : SignerView) (req : SignRequest) : World n :=
  { w with
    signers := Function.update w.signers i (v.handleSign req (w.signers i)).2
    signed := w.signedAfter i v req (v.handleSign req (w.signers i)).1 }

/-- `T` has the signatures of `threshold` signers: each honest one of them signed it for an
action among `keys`. -/
def World.Gathered (w : World n) (S : Setting n) (keys : ActionKey → Prop) (T : MsgTx) : Prop :=
  ∃ Q : Finset (Fin n), S.threshold ≤ Q.card ∧ ∀ i∈Q, i∈S.honest →
    ∃ s∈w.signed, s.signer = i ∧ s.req.tx = T.unsigned ∧ keys s.req.action.key

/-- A chain that has only grown: nothing left it, and nothing is less deep. -/
def Extends (C C' : List ChainTx) : Prop :=
  ∀ t∈C, ∃ t'∈C', t'.tx = t.tx ∧ t.confirmations ≤ t'.confirmations

/-- A chain on which nobody's signature is forged. -/
def Unforged (S : Setting n) (w : World n) (c : ChainName) (C : List ChainTx) : Prop :=
  ∀ t∈C, SpendsScript S.script C t.tx → (∃ t₀∈S.start c, t₀.tx = t.tx) ∨ w.Gathered S (fun _ => True) t.tx

inductive WorldStep (S : Setting n) : World n → World n → Prop where
  | request {w i v} (req : SignRequest) (honest : i∈S.honest)
      (admits : S.views v) (shows : Shows v S.script w.chains) : WorldStep S w (w.answer i v req)
  | blocks {w : World n} (next : ChainName → List ChainTx)
      (chains : ∀ c, ChainIn S.txs (next c))
      (final : Extends (w.chains .dogecoinVM) (next .dogecoinVM))
      (unforged : ∀ c, Unforged S w c (next c)) : WorldStep S w { w with chains := next }

def Reaches (S : Setting n) : World n → World n → Prop := Relation.ReflTransGen (WorldStep S)

/-- The start of a run: every honest signer is past its cutover, with the same anchors, which
are coins of the set. -/
structure Begins (S : Setting n) (anchors : ChainName → OutPoint) (w : World n) : Prop where
  few : S.honestᶜ.card < S.threshold
  apart : CollisionFree S.txs
  chains_eq : w.chains = S.start
  chains : ∀ c, ChainIn S.txs (S.start c)
  coin : ∀ c, ∃ t∈S.start c, anchors c ∈ coinPoints S.script t.tx
  proven : ∀ i∈S.honest, (w.signers i).log.unproven = false
  anchored : ∀ i∈S.honest, ∀ c, (w.signers i).log.anchors c = some (anchors c)
  unsigned : w.signed = []

/-! ## Seeing a transaction in a block -/

namespace Shows

variable {v : SignerView} {script : Script} {chains : ChainName → List ChainTx} {c : ChainName}
  {t : ChainTx} {p : OutPoint}

theorem mem_inBlocks_of (h : Shows v script chains) {U : List MsgTx} (hC : ChainIn U (chains c)) (ht : t∈chains c)
    (htouch : coinPoints script t.tx ≠ [] ∨ SpendsScript script (chains c) t.tx) : t∈inBlocks (v.listed c) :=
  mem_inBlocks.mpr ⟨h.complete c t ht htouch,hC.mined t ht⟩

theorem settles (h : Shows v script chains) {U : List MsgTx} {key : ActionKey}
    (hkey : key.chain=some c) (hC : ChainIn U (chains c)) (ht : t∈chains c)
    (hspends : SpendsScript script (chains c) t.tx) (htag : key.TaggedIn t.tx) : v.state.Settles key := by
  obtain ⟨op,hop,u,hu,hcoin⟩ := hspends
  have hlisted := mem_inBlocks.mp (h.mem_inBlocks_of hC ht (.inr ⟨op,hop,u,hu,hcoin⟩))
  have hfund := mem_inBlocks.mp (h.mem_inBlocks_of hC hu (.inl (ne_nil_of_mem hcoin)))
  have hidx := (makes_of_coinPoints hu hcoin).index
  rw [← h.script_eq] at hcoin
  -- it counts as signed by the set
  have hvm (hc : c = .dogecoinVM) : v.bridge.vmSigned v.nodes.vm.txs t = true := by
    subst hc
    rw [Bridge.vmSigned,not_coinbase_of_spends hop hidx,Bool.not_false,Bool.true_and,spendsAny,any_eq_true]
    exact ⟨op,hop,decide_eq_true (mem_flatMap.mpr ⟨u,hfund.1,hcoin⟩)⟩
  have hdoge (hc : c = .dogecoin) : v.bridge.dogeSigned v.nodes.doge.txs t = true := by
    subst hc
    rw [Bridge.dogeSigned,spendsAny,any_eq_true]
    obtain ⟨out,hout,hscript⟩ := mem_coinPoints.mp hcoin
    have hmem : op∈(coinsWhere v.bridge.watches u).map (·.outPoint) :=
      outPoint_mem_coinsWhere hout (by simp [hscript])
    exact ⟨op,hop,decide_eq_true (mem_flatMap.mpr ⟨u,hfund.1,hmem⟩)⟩
  have hsettled {κ : Type} {parse : MsgTx → Option κ} {m : κ → Option Hash} {k : κ} (hc : c = .dogecoin)
      (hm : Settles parse (v.nodes.doge.txs.filter (v.bridge.dogeSigned v.nodes.doge.txs)) m)
      (hk : parse t.tx=some k) : ¬((m k).all v.state.isUnconfirmed = true) := by
    intro hall
    have hun : v.state.unconfirmed = _ := (v.bridge.payments_spec v.nodes.doge).1
    have hnodup : ((v.nodes.doge.txs.filter (v.bridge.dogeSigned v.nodes.doge.txs)).map
        fun t => t.tx.txHash).Nodup := (filter_sublist.map _).nodup v.nodes.doge.nodup
    have hzero := (hm.all_unconfirmed hnodup k).mp (by rw [← hun]; exact hall) t
      (mem_filter.mpr ⟨by subst hc; exact hlisted.1, hdoge hc⟩) hk
    have hpos := hlisted.2
    omega
  cases key with
  | release op =>
    cases hkey
    refine Option.isSome_iff_ne_none.mp ?_
    change (((v.nodes.vm.txs.reverse.find? _).map _)).isSome = true
    rw [Option.isSome_map,List.find?_isSome]
    exact ⟨t,mem_reverse.mpr hlisted.1,by simp [hvm rfl,show parseRelease t.tx = _ from htag]⟩
  | cancel op =>
    cases hkey
    have hmem : t∈v.nodes.vm.txs.filter fun t =>
        v.bridge.vmSigned v.nodes.vm.txs t && parseCancel t.tx = some op :=
      mem_filter.mpr ⟨hlisted.1,by simp [hvm rfl,show parseCancel t.tx = _ from htag]⟩
    change v.bridge.cancelled v.nodes.vm.txs op ≠ none
    rw [Bridge.cancelled]
    split
    · next hnil => rw [hnil] at hmem; cases hmem
    · exact Option.some_ne_none _
  | payout txid =>
    cases hkey
    exact hsettled rfl (v.bridge.payments_spec v.nodes.doge).2.1 htag
  | refund op =>
    cases hkey
    exact hsettled rfl (v.bridge.payments_spec v.nodes.doge).2.2 htag
  | fence op => cases hkey

end Shows

/-! ## What a run keeps -/

/-- What is known of a signature of an honest signer. -/
structure Signed.Sound (S : Setting n) (anchors : ChainName → OutPoint) (s : Signed n) : Prop where
  admits : S.views s.view
  shows : Shows s.view S.script s.chains
  chains : ∀ c, ChainIn S.txs (s.chains c)
  checked : ∃ st : Signer, st.log.unproven = false ∧
    s.view.check s.req st = (.ok s.draft,(s.view.check s.req st).2)
  first : ∃ p, s.req.tx.spends.head? = some p ∧ Makes (s.chains s.draft.chain) p ∧
    OnLine S.txs S.script (anchors s.draft.chain) p

/-- What holds of every world a run leads to. -/
structure World.Sound (S : Setting n) (anchors : ChainName → OutPoint) (w : World n) : Prop where
  chains : ∀ c, ChainIn S.txs (w.chains c)
  proven : ∀ i∈S.honest, (w.signers i).log.unproven = false
  anchored : ∀ i∈S.honest, ∀ c, ∃ x, (w.signers i).log.anchors c = some x ∧
    OnLine S.txs S.script (anchors c) x
  signed : ∀ s∈w.signed, s.Sound S anchors
  unforged : ∀ c, Unforged S w c (w.chains c)
  begun : Extends (S.start .dogecoinVM) (w.chains .dogecoinVM)
  seen : ∀ s∈w.signed, Extends (S.start .dogecoinVM) (s.chains .dogecoinVM) ∧
    Extends (s.chains .dogecoinVM) (w.chains .dogecoinVM)

variable {S : Setting n} {anchors : ChainName → OutPoint} {w w' : World n}

omit [Hashing] in
theorem Extends.refl (C : List ChainTx) : Extends C C := fun t ht => ⟨t,ht,rfl,le_rfl⟩

omit [Hashing] in
theorem Extends.trans {A B C : List ChainTx} (hAB : Extends A B) (hBC : Extends B C) : Extends A C := by
  intro t ht
  obtain ⟨u,hu,htu,hle⟩ := hAB t ht
  obtain ⟨x,hx,hux,hle'⟩ := hBC u hu
  exact ⟨x,hx,hux.trans htu,hle.trans hle'⟩

theorem World.Gathered.mono {keys : ActionKey → Prop} {T : MsgTx} (h : w.Gathered S keys T)
    (hsub : ∀ s∈w.signed, s∈w'.signed) : w'.Gathered S keys T := by
  obtain ⟨Q,hcard,hQ⟩ := h
  refine ⟨Q,hcard,fun i hi hhonest => ?_⟩
  obtain ⟨s,hs,hfacts⟩ := hQ i hi hhonest
  exact ⟨s,hsub s hs,hfacts⟩

/-- Among enough signers there is an honest one. -/
theorem World.Gathered.honest {keys : ActionKey → Prop} {T : MsgTx} (h : w.Gathered S keys T)
    (hfew : S.honestᶜ.card<S.threshold) : ∃ s∈w.signed, s.req.tx = T.unsigned ∧ keys s.req.action.key := by
  obtain ⟨Q,hcard,hQ⟩ := h
  obtain ⟨i,hi,hhonest⟩ : ∃ i∈Q, i∈S.honest := by
    by_contra hnone
    have hsub : Q ⊆ S.honestᶜ := fun i hi => Finset.mem_compl.mpr fun hh => hnone ⟨i,hi,hh⟩
    have hle := Finset.card_le_card hsub
    omega
  obtain ⟨s,hs,-,htx,hkey⟩ := hQ i hi hhonest
  exact ⟨s,hs,htx,hkey⟩

theorem World.answer_signed (w : World n) (i : Fin n) (v : SignerView) (req : SignRequest) :
    ∀ s∈w.signed, s∈(w.answer i v req).signed := by
  intro s hs
  change s ∈ w.signedAfter i v req (v.handleSign req (w.signers i)).1
  cases (v.handleSign req (w.signers i)).1 with
  | ok draft => exact mem_cons_of_mem _ hs
  | error e => exact hs

variable {v : SignerView}

theorem World.exists_signed_answer {i : Fin n} {req : SignRequest}
    (h : (v.handleSign req (w.signers i)).1.isOk=true) :
    ∃ s∈(w.answer i v req).signed, s.signer = i ∧ s.req = req := by
  obtain ⟨draft,hdraft⟩ := exists_of_isOk h
  refine ⟨⟨i,v,w.chains,req,draft⟩,?_,rfl,rfl⟩
  change _ ∈ w.signedAfter i v req (v.handleSign req (w.signers i)).1
  rw [hdraft]
  exact mem_cons_self ..

namespace Begins

variable (h : Begins S anchors w)

include h

theorem index (c : ChainName) : (anchors c).index ≠ maxPrevOutIndex := by
  obtain ⟨t,ht,hcoin⟩ := h.coin c
  exact (makes_of_coinPoints ht hcoin).index

theorem sound : w.Sound S anchors where
  chains c := h.chains_eq ▸ h.chains c
  proven := h.proven
  anchored i hi c := ⟨_,h.anchored i hi c,.refl (h.index c)⟩
  signed s hs := by
    rw [h.unsigned] at hs
    cases hs
  unforged c t ht _ := .inl ⟨t,h.chains_eq ▸ ht,rfl⟩
  begun := h.chains_eq ▸ Extends.refl _
  seen s hs := by
    rw [h.unsigned] at hs
    cases hs

end Begins

theorem World.Sound.first (hsound : w.Sound S anchors) (hU : CollisionFree S.txs) {i : Fin n}
    (hi : i∈S.honest) (hshows : Shows v S.script w.chains) {req : SignRequest}
    {draft : Draft} {st' : Signer} (hcheck : v.check req (w.signers i)=(.ok draft,st')) :
    ∃ p, req.tx.spends.head? = some p ∧ Makes (w.chains draft.chain) p ∧
      OnLine S.txs S.script (anchors draft.chain) p := by
  obtain ⟨p,last,hhead,hlast,⟨t,ht,out,hout⟩,depth,hlead⟩ := SignerView.check_first hcheck (hsound.proven i hi)
  obtain ⟨x,hx,hline⟩ := hsound.anchored i hi draft.chain
  rw [hlast,Option.some.injEq] at hx
  subst hx
  rw [hshows.script_eq] at hlead
  obtain ⟨hidx,hlead⟩ := (hsound.chains draft.chain).leads_of_listed (hshows.listed _) hline.index hlead
  exact ⟨p,hhead,⟨t,hshows.listed _ t ht,out,hout⟩,hline.extend hU (hsound.chains _) hlead hidx⟩

/-- A request keeps what is known, whatever is asked and whether or not it is signed. -/
theorem World.Sound.answer (hsound : w.Sound S anchors) (hU : CollisionFree S.txs) {i : Fin n}
    (hi : i∈S.honest) (hadmits : S.views v) (hshows : Shows v S.script w.chains)
    (req : SignRequest) : (w.answer i v req).Sound S anchors := by
  have hproven := hsound.proven i hi
  have hplace := SignerView.check_samePlace v req hproven
  -- the log after the request
  have hlog : (v.handleSign req (w.signers i)).2.log.unproven = false ∧
      ∀ c, ∃ x, (v.handleSign req (w.signers i)).2.log.anchors c = some x ∧ OnLine S.txs S.script (anchors c) x := by
    rcases v.handleSign_cases req (w.signers i) with ⟨e,-,hres⟩ | ⟨draft,hcheck,hlog,-⟩
    · rw [hres]
      refine ⟨hplace.unproven.trans hproven,fun c => ?_⟩
      rw [hplace.anchors]
      exact hsound.anchored i hi c
    · obtain ⟨p,hhead,-,hline⟩ := hsound.first hU hi hshows hcheck
      rw [hlog]
      refine ⟨hplace.unproven.trans hproven,fun c => ?_⟩
      have hanchors : ((v.check req (w.signers i)).2.log.record req.action.key draft.chain req.tx
          draft.value (draft.surplusFee.getD 0) v.unix).anchors =
            Function.update (w.signers i).log.anchors draft.chain (some p) := by
        rw [← hplace.anchors,SigningLog.record,hhead]
        rfl
      rw [hanchors]
      by_cases hc : c = draft.chain
      · subst hc
        exact ⟨p,update_self ..,hline⟩
      · rw [update_of_ne hc]
        exact hsound.anchored i hi c
  have hsigned : ∀ s∈(w.answer i v req).signed, s∈w.signed ∨ s.Sound S anchors ∧ s.chains = w.chains := by
    intro s hs
    change s ∈ w.signedAfter i v req (v.handleSign req (w.signers i)).1 at hs
    rcases v.handleSign_cases req (w.signers i) with ⟨e,-,hres⟩ | ⟨draft,hcheck,-,hdone⟩
    · rw [hres] at hs
      exact .inl hs
    · cases hd : (v.handleSign req (w.signers i)).1 with
      | error e =>
        rw [hd] at hs
        exact .inl hs
      | ok d =>
        rw [hd] at hs
        obtain ⟨rfl,-⟩ := hdone d hd
        rcases mem_cons.mp hs with rfl | hs
        · exact .inr ⟨⟨hadmits,hshows,hsound.chains,⟨_,hproven,hcheck⟩,hsound.first hU hi hshows hcheck⟩,rfl⟩
        · exact .inl hs
  refine {
    chains := hsound.chains
    proven := fun j hj => ?_
    anchored := fun j hj => ?_
    signed := fun s hs => (hsigned s hs).elim (hsound.signed s) And.left
    unforged := fun c t ht hspends => (hsound.unforged c t ht hspends).imp_right
      fun hg => hg.mono (w.answer_signed i v req)
    begun := hsound.begun
    seen := fun s hs => ?_ }
  · by_cases hji : j = i
    · subst hji
      simpa [World.answer] using hlog.1
    · simpa [World.answer,update_of_ne hji] using hsound.proven j hj
  · by_cases hji : j = i
    · subst hji
      simpa [World.answer] using hlog.2
    · simpa [World.answer,update_of_ne hji] using hsound.anchored j hj
  · rcases hsigned s hs with hs | ⟨-,heq⟩
    · exact hsound.seen s hs
    · rw [heq]
      exact ⟨hsound.begun,Extends.refl _⟩

theorem WorldStep.sound (hU : CollisionFree S.txs) (hstep : WorldStep S w w')
    (hsound : w.Sound S anchors) : w'.Sound S anchors := by
  cases hstep with
  | request req hi hadmits hshows => exact hsound.answer hU hi hadmits hshows req
  | blocks next hchains hfinal hunforged =>
    exact {
      chains := hchains
      proven := hsound.proven
      anchored := hsound.anchored
      signed := hsound.signed
      unforged := hunforged
      begun := hsound.begun.trans hfinal
      seen := fun s hs => ⟨(hsound.seen s hs).1,(hsound.seen s hs).2.trans hfinal⟩ }

theorem Reaches.sound {w₀ : World n} (h₀ : Begins S anchors w₀) (h : Reaches S w₀ w) : w.Sound S anchors := by
  induction h with
  | refl => exact h₀.sound
  | tail _ hstep ih => exact hstep.sound h₀.apart ih

end

end DogePeg
