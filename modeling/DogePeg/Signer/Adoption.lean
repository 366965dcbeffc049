import DogePeg.Signer.Assemble
import DogePeg.Signer.Fencing

/-!
# A log rebuilt from the chains

`adopt` adds what the chains show a key signed and its log lacks, sets the anchors, and starts a
cutover, all in one write (`cmd/dogevm/fence.go`). What it leaves: every listed signature logged,
every coin an older one could spend recorded, the anchors on their lines.
-/

namespace DogePeg

open Checks Node Walk List SigningLog Option SignerView

variable {chain : ChainName} {op : OutPoint}

section

variable [Hashing]

namespace SignerView

variable (v : SignerView)

def listedTxs : List ChainTx := v.state.vmTxs++v.state.dogeTxs

/-- `cosigner.adopt`: the transactions it adopted, or why it did nothing. -/
def adoptLog : Stage CommandError Signer (List Hash) := fun st =>
  match v.adopted st.log with
  | .error e => (.error e,st)
  | .ok log =>
    let (res,st') := Signer.write (v.disk .start) { st with log }
    (res.map (fun _ => v.unlogged st.log) |>.mapError .refused,st')

variable {v}

theorem adoptLog_of_done (st : Signer) {log : SigningLog} (h : v.adopted st.log = .ok log)
    (hdisk : v.disk .start = .done) : v.adoptLog st = (.ok (v.unlogged st.log),{ st with log,files := [log] }) := by
  rw [adoptLog,h]
  dsimp only
  rw [hdisk]
  rfl

theorem adoptLog_of_notSynced (st : Signer) {log : SigningLog} (h : v.adopted st.log = .ok log)
    (hdisk : v.disk .start = .notSynced) :
    v.adoptLog st = (.error (.refused .writing),{ st with log,files := log::st.files }) := by
  rw [adoptLog,h]
  dsimp only
  rw [hdisk]
  rfl

end SignerView

/-! ## What is added -/

namespace SigningLog

variable {log : SigningLog} {key : ActionKey} {t : LoggedTx}

omit [Hashing] in
theorem Holds.mem_txids (h : log.Holds key t) : t.txid∈log.txids := by
  obtain ⟨a,ha,t',ht',hsame⟩ := h
  rw [← hsame.txid]
  exact mem_map_of_mem (mem_flatMap.mpr ⟨⟨key,a⟩,AList.mem_lookup_iff.mp ha,ht'⟩)

omit [Hashing] in
theorem exists_holds_of_mem_txids {id : Hash} (h : id∈log.txids) : ∃ key t, log.Holds key t ∧ t.txid = id := by
  obtain ⟨t,ht,rfl⟩ := mem_map.mp h
  obtain ⟨⟨key,a⟩,ha,ht⟩ := mem_flatMap.mp ht
  exact ⟨key,t,⟨a,AList.mem_lookup_iff.mpr ha,t,ht,.refl t⟩,rfl⟩

theorem holds_foldl_adoptTx {missing : List (ActionKey × ChainTx)} {p : ActionKey × ChainTx} (hp : p∈missing)
    (log : SigningLog) : (missing.foldl (fun log p => log.adoptTx p.1 p.2) log).Holds p.1
      ⟨unsignedHash p.2.tx,[p.2.tx.txHash],p.2.tx.spends,none,0⟩ := by
  induction missing generalizing log with
  | nil => cases hp
  | cons q missing ih =>
    rcases mem_cons.mp hp with rfl | hp
    · have hadded : (log.adoptTx p.1 p.2).Holds p.1 ⟨unsignedHash p.2.tx,[p.2.tx.txHash],p.2.tx.spends,none,0⟩ :=
        ⟨_,AList.lookup_insert _,_,mem_append_right _ (mem_singleton_self _),.refl _⟩
      exact (foldl_adoptTx missing _).2 _ _ hadded
    · exact ih hp _

end SigningLog

theorem unsignedHash_eq_of_stripWitness {t u : MsgTx} (h : t.stripWitness=u.stripWitness) :
    unsignedHash t = unsignedHash u := by
  have hstrip (t : MsgTx) : t.stripWitness.unsigned = t.unsigned := by
    simp [MsgTx.stripWitness,MsgTx.unsigned,Function.comp_def]
  rw [unsignedHash,unsignedHash,← hstrip t,← hstrip u,h]

section Adopted

variable {v : SignerView} {log log' : SigningLog}

def SigningLog.adoptTxs (log : SigningLog) (missing : List (ActionKey × ChainTx)) : SigningLog :=
  missing.foldl (fun log p => log.adoptTx p.1 p.2) log

/-- All that `adopt` does to a log: it finds the action of each missing transaction, the anchors lead
to the tips, and the coins to clear are known. -/
structure Adopts (v : SignerView) (log log' : SigningLog) (missing : List (ActionKey × ChainTx))
    (tips : ChainName → Option OutPoint) (coins : ChainName → List OutPoint) : Prop where
  keys : (v.missing log).mapM SignerView.adoptable = .ok missing
  tips_eq : v.state.tips = .ok tips
  leads : ∀ chain, (log.adoptTxs missing).anchorLeads v.state tips chain = .ok ()
  coins_eq : v.state.cutoverCoins v.bridge (log.adoptTxs missing) = .ok coins
  log_eq : log' = ({ log.adoptTxs missing with
    anchors := fun chain => ((log.adoptTxs missing).anchors chain).or (tips chain)
    history := .unproven }).started coins v.unix

theorem adopted_adopts (h : v.adopted log = .ok log') : ∃ missing tips coins, Adopts v log log' missing tips coins := by
  simp only [SignerView.adopted,SigningLog.fillAnchors,checks_ok] at h
  obtain ⟨missing,hkeys,filled,⟨tips,htips,hdoge,hvm,rfl⟩,-,coins,hcoins,rfl⟩ := h
  refine ⟨missing,tips,coins,hkeys,htips,fun chain => ?_, hcoins, rfl⟩
  cases chain with
  | dogecoin => exact hdoge
  | dogecoinVM => exact hvm

variable {missing : List (ActionKey × ChainTx)} {tips : ChainName → Option OutPoint} {coins : ChainName → List OutPoint}

theorem adoptTxs_anchors (missing : List (ActionKey × ChainTx)) (log : SigningLog) :
    (log.adoptTxs missing).anchors = log.anchors := by
  induction missing generalizing log with
  | nil => rfl
  | cons p missing ih => exact ih (log.adoptTx p.1 p.2)

variable (h : Adopts v log log' missing tips coins)

include h

theorem Adopts.holds_iff {key : ActionKey} {t : LoggedTx} : log'.Holds key t ↔ (log.adoptTxs missing).Holds key t := by
  rw [h.log_eq]
  exact Iff.rfl

theorem Adopts.keeps {key : ActionKey} {t : LoggedTx} (ht : log.Holds key t) : log'.Holds key t :=
  h.holds_iff.mpr ((foldl_adoptTx missing log).2 key t ht)

theorem Adopts.logged (hfree : CollisionFree (v.listedTxs.map (·.tx))) {t : ChainTx} (ht : t∈v.listedTxs)
    (hsigned : v.signedBy t.tx=true) : unsignedHash t.tx ∈ log'.txids := by
  by_cases hold : unsignedHash t.tx ∈ log.txids
  · obtain ⟨key,e,hholds,hid⟩ := exists_holds_of_mem_txids hold
    exact hid ▸ (h.keeps hholds).mem_txids
  · have hmissing : t.tx.txHash∈v.unlogged log := mem_map.mpr ⟨t,mem_filter.mpr ⟨ht,by simp [hsigned,hold]⟩,rfl⟩
    -- the transaction its hash names is the same but for witnesses
    obtain ⟨u,hu⟩ : ∃ u, v.listedTxs.reverse.find? (fun u => u.tx.txHash = t.tx.txHash) = some u :=
      isSome_iff_exists.mp (List.find?_isSome.mpr ⟨t,mem_reverse.mpr ht,by simp⟩)
    have hhash : u.tx.txHash = t.tx.txHash := by simpa using List.find?_some hu
    have hmem : u∈v.listedTxs := mem_reverse.mp (mem_of_find?_eq_some hu)
    have hfound : u∈v.missing log := mem_filterMap.mpr ⟨t.tx.txHash,hmissing,hu⟩
    obtain ⟨p,hp,hadoptable⟩ := mem_of_mapM_ok h.keys u hfound
    simp only [SignerView.adoptable,checks_ok] at hadoptable
    obtain ⟨-,key,-,rfl⟩ := hadoptable
    have hsame : unsignedHash u.tx = unsignedHash t.tx :=
      unsignedHash_eq_of_stripWitness (hfree u.tx (mem_map_of_mem hmem) t.tx (mem_map_of_mem ht) hhash)
    rw [← hsame]
    exact (h.holds_iff.mpr (holds_foldl_adoptTx hp log)).mem_txids

theorem Adopts.mem_recorded : op∈log'.recorded chain ↔ op∈log.recorded chain ∨ op∈coins chain := by
  rw [h.log_eq,mem_recorded_started]
  change op ∈ ((log.adoptTxs missing).cutover chain).getD [] ∨ _ ↔ _
  rw [SigningLog.adoptTxs,(foldl_adoptTx missing log).1]
  rfl

theorem Adopts.inCutover (chain : ChainName) : (log'.cutover chain).isSome = true := by
  rw [h.log_eq]
  rfl

theorem Adopts.leads_tip {tip : OutPoint} (htip : tips chain=some tip) :
    ∃ a, log'.anchors chain = some a ∧ Leads (v.state.lineOn chain).nextCoin a tip := by
  have hanchors : log'.anchors chain = (log.anchors chain).or (tips chain) := by
    rw [h.log_eq,← adoptTxs_anchors missing log]
    rfl
  cases hold : log.anchors chain with
  | none => exact ⟨tip,by rw [hanchors,hold,none_or,htip], Leads.refl _ _⟩
  | some a =>
    have hleads := h.leads chain
    rw [SigningLog.anchorLeads,htip,adoptTxs_anchors,hold] at hleads
    obtain ⟨last,hlast,hlead⟩ := leads_of_anchorMoved hleads rfl
    rw [adoptTxs_anchors,hold,Option.some.injEq] at hlast
    exact ⟨a,by rw [hanchors,hold,some_or], hlast ▸ hlead⟩

end Adopted

variable {coins : ChainName → List OutPoint} {v : SignerView}

theorem exists_mem_cutoverCoins {log : SigningLog}
    {key : ActionKey} {t : LoggedTx} (h : v.state.cutoverCoins v.bridge log = .ok coins)
    (ht : log.Holds key t) (hop : op∈t.inputs) : ∃ chain, v.state.inputChain v.bridge t op = some chain ∧
      ((v.state.view v.bridge chain).funding op.hash).isSome ∧ (op∈coins chain ∨ v.clears chain op) := by
  obtain ⟨a,ha,t',ht',hsame⟩ := ht
  simp only [PegState.cutoverCoins,checks_ok] at h
  obtain ⟨logged,hlogged,rfl⟩ := h
  have hentry : (key,t',op)∈log.actions.entries.flatMap fun e =>
      e.2.txs.flatMap fun t => t.inputs.map fun op => (e.1,t,op) :=
    mem_flatMap.mpr ⟨⟨key,a⟩,AList.mem_lookup_iff.mp ha,
      mem_flatMap.mpr ⟨t',ht',mem_map.mpr ⟨op,hsame.inputs ▸ hop,rfl⟩⟩⟩
  obtain ⟨q,hq,hres⟩ := mem_of_mapM_ok hlogged _ hentry
  simp only [PegState.loggedInput,checks_ok] at hres
  obtain ⟨chain,hchain,hfund,rfl⟩ := hres
  rw [PegState.inputChain,hsame.chain] at hchain
  refine ⟨chain,hchain,hfund,?_⟩
  by_cases hclear : v.clears chain op
  · exact .inr hclear
  · refine .inl (mem_filter.mpr ⟨mem_append_right _ ?_,by simpa [SignerView.clears] using hclear⟩)
    exact mem_map.mpr ⟨(chain,op),mem_filter.mpr ⟨hq,decide_eq_true rfl⟩,rfl⟩

/-- The chain an entry that names none is looked up on is the one whose history has the transaction. -/
theorem PegState.inputChain_eq {s : PegState} {b : Bridge} {t : LoggedTx} {c : ChainName}
    (h : s.inputChain b t op=some chain)
    (hc : t.chain = some c ∨ t.chain = none ∧ ∀ c' ≠ c, (s.view b c').funding op.hash = none) : chain = c := by
  rw [PegState.inputChain] at h
  rcases hc with hc | ⟨hnone,hother⟩
  · rw [hc,some_or,Option.some.injEq] at h
    exact h.symm
  · rw [hnone,none_or] at h
    have hfund := List.find?_some h
    by_contra hne
    rw [hother chain hne] at hfund
    cases hfund

structure AdoptedLog (v : SignerView) (log : SigningLog) : Prop where
  logged : ∀ t∈v.listedTxs, v.signedBy t.tx = true → unsignedHash t.tx ∈ log.txids
  inCutover : log.history = .unproven ∧ ∀ chain, (log.cutover chain).isSome = true
  /-- A coin of the set that a chain lists, on DogecoinVM in a block, is recorded or cleared. -/
  coins : ∀ chain, ∀ t∈(v.state.view v.bridge chain).txs++(v.state.view v.bridge chain).conflicted,
    chain = .dogecoin ∨ 0 < t.confirmations →
    ∀ u∈coinsWhere (v.state.view v.bridge chain).isCoin t, u.outPoint∈log.recorded chain ∨ v.clears chain u.outPoint
  /-- So is an input of a logged transaction, on its chain: the one it names, or the only one that
  lists its funding transaction. -/
  inputs : ∀ key t, log.Holds key t → ∀ op∈t.inputs,
    ∃ chain, ((v.state.view v.bridge chain).funding op.hash).isSome ∧
      (op∈log.recorded chain ∨ v.clears chain op) ∧
      ∀ c, t.chain = some c ∨ t.chain = none ∧ (∀ c' ≠ c, (v.state.view v.bridge c').funding op.hash = none) →
        chain = c
  /-- The anchors are the tips of the lines, or lead to them. -/
  anchors : ∃ tips, v.state.tips = .ok tips ∧ ∀ chain tip, tips chain = some tip →
    ∃ a, log.anchors chain = some a ∧ Leads (v.state.lineOn chain).nextCoin a tip

/-- With `signedBy` as the source computes it, of the signer's own key, whatever carries its signature is
logged. -/
theorem AdoptedLog.own_logged [Signing] {log : SigningLog} (h : AdoptedLog v log) {s : SignerSet}
    (hs : Accepted s) (h14 : s.pubKeys.length≤14) {pub : Signing.PubKey}
    (hview : v.signedBy = fun tx => s.signedBy tx pub) {t : ChainTx} (ht : t∈v.listedTxs)
    (hcarries : s.Carries pub t.tx) : unsignedHash t.tx ∈ log.txids := by
  obtain ⟨f,hloaded⟩ := hs.loaded
  refine h.logged t ht ?_
  rw [hview]
  exact hloaded.signedBy_of_carries h14 hcarries

theorem Adopts.adoptedLog {log log' : SigningLog} {missing : List (ActionKey × ChainTx)}
    {tips : ChainName → Option OutPoint}
    (h : Adopts v log log' missing tips coins) (hfree : CollisionFree (v.listedTxs.map (·.tx))) :
    AdoptedLog v log' where
  logged t ht hsigned := h.logged hfree ht hsigned
  inCutover := ⟨by rw [h.log_eq]; rfl, h.inCutover⟩
  coins chain t ht hblock u hu := by
    have hshown : u.outPoint∈v.state.shownCoins v.bridge chain := by
      refine mem_flatMap.mpr ⟨t,mem_filter.mpr ⟨ht,?_⟩,mem_map_of_mem hu⟩
      simpa using hblock
    rcases mem_cutoverCoins h.coins_eq (.inl hshown) with hmem | hclear
    · exact .inl (h.mem_recorded.mpr (.inr hmem))
    · exact .inr hclear
  inputs key t ht op hop := by
    obtain ⟨chain,hchain,hfund,hcoins⟩ := exists_mem_cutoverCoins h.coins_eq (h.holds_iff.mp ht) hop
    refine ⟨chain,hfund,?_,fun c hc => PegState.inputChain_eq hchain hc⟩
    rcases hcoins with hmem | hclear
    · exact .inl (h.mem_recorded.mpr (.inr hmem))
    · exact .inr hclear
  anchors := ⟨tips,h.tips_eq,fun chain tip htip => h.leads_tip htip⟩

/-- A signer whose `adopt` returns has an adopted log, in memory and in its file, which lost nothing it
held; one whose `adopt` fails has the file it had, unless the new one was put in place and could not be
synced. -/
theorem adopt_complete_and_safe (v : SignerView) (st : Signer) (hfree : CollisionFree (v.listedTxs.map (·.tx))) :
    (∀ ids st', v.adoptLog st = (.ok ids,st') → AdoptedLog v st'.log ∧ st'.files = [st'.log] ∧
      (∀ key t, st.log.Holds key t → st'.log.Holds key t) ∧
      ∀ chain, ∀ op∈st.log.recorded chain, op∈st'.log.recorded chain) ∧
    ∀ e st', v.adoptLog st = (.error e,st') → v.disk .start ≠ .notSynced → st'.files = st.files := by
  unfold SignerView.adoptLog
  cases hadopted : v.adopted st.log with
  | error why =>
    refine ⟨fun ids st' h => ?_, fun e st' h _ => ?_⟩
    · cases (Prod.mk.inj h).1
    · rw [← (Prod.mk.inj h).2]
  | ok log =>
    obtain ⟨missing,tips,coins,h⟩ := adopted_adopts hadopted
    dsimp only
    cases hdisk : v.disk .start with
    | done =>
      refine ⟨fun ids st' heq => ?_, fun e st' heq _ => ?_⟩
      · cases heq
        exact ⟨h.adoptedLog hfree,rfl,fun key t ht => h.keeps ht, fun chain op hop => h.mem_recorded.mpr (.inl hop)⟩
      · cases (Prod.mk.inj heq).1
    | notRenamed =>
      refine ⟨fun ids st' heq => ?_, fun e st' heq _ => ?_⟩
      · cases (Prod.mk.inj heq).1
      · rw [← (Prod.mk.inj heq).2]
        rfl
    | notSynced =>
      refine ⟨fun ids st' heq => ?_, fun e st' heq hne => absurd rfl hne⟩
      cases (Prod.mk.inj heq).1

end

/-! ## Two logs -/

section Sample

attribute [local instance] sampleHashing

def lostLog : SigningLog := ⟨∅,fun _ => none, .unproven, fun _ => none, 0, 0, 0, []⟩

def lostSigner : Signer := ⟨lostLog,[lostLog],false⟩

/-- A payment into the reserve. -/
def waitingPayment : MsgTx := { sampleReserve with txIn := [sampleInput ⟨7,0⟩] }

/-- It is in no block yet. -/
def waitingHistory : History where
  vm := .of [⟨waitingPayment,0,0⟩]
  doge := .empty
  dogeConflicted := []

def waitingView (disk : WritePoint → WriteOutcome) : SignerView :=
  { sampleView sampleBridge waitingHistory with disk }

/-- `adopt` returns and leaves a coin of the set that is listed unrecorded, though nothing cleared it;
and where the directory cannot be synced it fails with the file replaced. -/
theorem listed_coin_unrecorded : (∃ ids st', (waitingView fun _ => .done).adoptLog lostSigner = (.ok ids,st') ∧
      ∃ t∈((waitingView fun _ => .done).state.view sampleBridge .dogecoinVM).txs,
      ∃ u∈coinsWhere ((waitingView fun _ => .done).state.view sampleBridge .dogecoinVM).isCoin t,
        ¬ (waitingView fun _ => .done).clears .dogecoinVM u.outPoint ∧ u.outPoint ∉ st'.log.recorded .dogecoinVM) ∧
    ∃ e st', (waitingView fun _ => .notSynced).adoptLog lostSigner = (.error e,st') ∧
      st'.files ≠ lostSigner.files := by
  have hcoin : (⟨waitingPayment.outPoint 0,1000,sampleBridge.script,0⟩ : Utxo)∈coinsWhere
      ((waitingView fun _ => .done).state.view sampleBridge .dogecoinVM).isCoin ⟨waitingPayment,0,0⟩ := by
    decide +kernel
  obtain ⟨log,hlog,hrecorded⟩ : ∃ log, (waitingView fun _ => .done).adopted lostLog = .ok log ∧
      log.recorded .dogecoinVM = [] := by
    refine exists_ok_of_any ?_ |>.imp fun l h => ⟨h.1,of_decide_eq_true h.2⟩
    decide +kernel
  obtain ⟨log',hlog'⟩ : ∃ log, (waitingView fun _ => .notSynced).adopted lostLog = .ok log :=
    exists_of_isOk (by decide +kernel)
  have hok := adoptLog_of_done lostSigner hlog rfl
  have herror := adoptLog_of_notSynced lostSigner hlog' rfl
  have hlisted : (⟨waitingPayment,0,0⟩ : ChainTx) ∈
      ((waitingView fun _ => .done).state.view sampleBridge .dogecoinVM).txs := mem_singleton_self _
  have hclear : ((waitingView fun _ => .done).state.view sampleBridge .dogecoinVM).cleared
      (waitingPayment.outPoint 0) = false := by decide +kernel
  refine ⟨⟨_,_,hok,_,hlisted,_,hcoin,fun h => Bool.false_ne_true (hclear.symm.trans h), ?_⟩,_,_,herror,?_⟩
  · rw [hrecorded]
    exact not_mem_nil
  · exact fun heq => absurd (congrArg List.length heq) (Nat.succ_ne_self 1)

/-- The release of a deposit, which the log lost. -/
def lostHistory : History where
  vm := undoneHistory.vm
  doge := depositListing
  dogeConflicted := []

def lostView : SignerView :=
  { sampleView sampleBridge lostHistory with signedBy := fun tx => tx = sampleRelease }

/-- It is adopted, and the coin it left is recorded. -/
theorem lost_release_adopted : ∃ ids st', lostView.adoptLog lostSigner = (.ok ids,st') ∧
    unsignedHash sampleRelease ∈ st'.log.txids ∧
    (sampleRelease.outPoint 1 ∈ st'.log.recorded .dogecoinVM ∨ lostView.clears .dogecoinVM (sampleRelease.outPoint 1)) ∧
    ¬ lostView.clears .dogecoinVM (sampleRelease.outPoint 1) := by
  have hfree : CollisionFree (lostView.listedTxs.map (·.tx)) := CollisionFree.of_nodup (by decide +kernel)
  obtain ⟨log,hlog⟩ : ∃ log, lostView.adopted lostLog = .ok log := exists_of_isOk (by decide +kernel)
  have hadopt := adoptLog_of_done lostSigner hlog rfl
  obtain ⟨hok,-⟩ := adopt_complete_and_safe lostView lostSigner hfree
  obtain ⟨hadopted,-⟩ := hok _ _ hadopt
  have hcoin : (⟨sampleRelease.outPoint 1,950,sampleBridge.script,8⟩ : Utxo)∈coinsWhere
      (lostView.state.view lostView.bridge .dogecoinVM).isCoin ⟨sampleRelease,8,0⟩ := by
    decide +kernel
  have hvm : (⟨sampleRelease,8,0⟩ : ChainTx)∈lostView.state.vmTxs := by decide +kernel
  have hsigned : lostView.signedBy sampleRelease = true := by decide +kernel
  have hclear : (lostView.state.view lostView.bridge .dogecoinVM).cleared (sampleRelease.outPoint 1) = false := by
    decide +kernel
  have hlogged := hadopted.logged ⟨sampleRelease,8,0⟩ (mem_append_left _ hvm) hsigned
  have hrecorded := hadopted.coins .dogecoinVM ⟨sampleRelease,8,0⟩ (mem_append_left _ hvm) (.inr (by decide)) _ hcoin
  exact ⟨_,_,hadopt,hlogged,hrecorded,fun h => Bool.false_ne_true (hclear.symm.trans h)⟩

end Sample

end DogePeg
