import DogePeg.Bridge.Outsiders
import DogePeg.Bridge.Wallet
import DogePeg.Quorum.Chain
import DogePeg.Signer.Commands
import Mathlib.Data.List.Dedup

/-!
# What a cutover proves

A log that becomes fenced has seen every coin that a signature from before its cutover could
spend either spent deep in its chain, or made by a transaction that a deep one conflicts with.
So whatever its key had signed is in a block or can never be in one, and until then the key
signs nothing but fences.
-/

namespace DogePeg

open Amounts Checks Node Relation List SigningLog

variable {coins : ChainName → List OutPoint}

section

variable [Hashing]

/-! ## Coins no old signature can spend -/

/-- `F` is not in a chain that keeps what `C` has at `depth`: a transaction that deep spends a
coin of it, or of one that `F` comes after. -/
inductive Conflicted (U : List MsgTx) (C : List ChainTx) (depth : ℤ) : MsgTx → Prop where
  | direct {F op t} (known : F∈U) (plain : isCoinbase F=false)
      (spends : op∈F.spends) (mined : t∈C) (deep : depth≤t.confirmations)
      (spent : op∈t.tx.spends) (other : t.tx.stripWitness≠F.stripWitness) : Conflicted U C depth F
  | child {F G : MsgTx} {op : OutPoint} (known : F∈U) (plain : isCoinbase F=false)
      (spends : op∈F.spends) (hash : op.hash=G.txHash) (parent : Conflicted U C depth G) :
      Conflicted U C depth F

/-- The coin is spent, or the transaction that would make it conflicted, at `depth`. -/
def Cleared (U : List MsgTx) (C : List ChainTx) (depth : ℤ) (op : OutPoint) : Prop :=
  (∃ t∈C, depth ≤ t.confirmations ∧ op∈t.tx.spends) ∨ ∃ F, F.txHash = op.hash ∧ Conflicted U C depth F

/-- A chain that was reorganised at most less deep than `depth`. -/
def Grows (depth : ℤ) (C C' : List ChainTx) : Prop :=
  ∀ t∈C, depth ≤ t.confirmations → ∃ t'∈C', t'.tx = t.tx ∧ t.confirmations ≤ t'.confirmations

variable {U : List MsgTx} {C C' : List ChainTx} {depth : ℤ} {F T : MsgTx} {op : OutPoint}

theorem Conflicted.known (h : Conflicted U C depth F) : F∈U := by
  cases h with
  | direct known => exact known
  | child known => exact known

theorem Conflicted.grow (h : Conflicted U C depth F) (hgrows : Grows depth C C') : Conflicted U C' depth F := by
  induction h with
  | direct known plain spends mined deep spent other =>
    obtain ⟨t',ht',htx,hle⟩ := hgrows _ mined deep
    exact .direct known plain spends ht' (deep.trans hle) (htx ▸ spent) (htx ▸ other)
  | child known plain spends hash _ ih => exact .child known plain spends hash ih

theorem Cleared.grow (h : Cleared U C depth op) (hgrows : Grows depth C C') : Cleared U C' depth op := by
  rcases h with ⟨t,ht,hdeep,hop⟩ | ⟨F,hhash,hF⟩
  · obtain ⟨t',ht',htx,hle⟩ := hgrows t ht hdeep
    exact .inl ⟨t',ht',hdeep.trans hle,htx ▸ hop⟩
  · exact .inr ⟨F,hhash,hF.grow hgrows⟩

omit [Hashing] in
theorem isCoinbase_eq (x : MsgTx) : isCoinbase x =
    match x.spends with
    | [op] => isNullOutPoint op
    | _ => false := by
  unfold isCoinbase MsgTx.spends
  rcases x.txIn with _ | ⟨i,_ | ⟨j,l⟩⟩ <;> rfl

omit [Hashing] in
theorem isCoinbase_congr {x y : MsgTx} (h : x.spends=y.spends) : isCoinbase x = isCoinbase y := by
  rw [isCoinbase_eq,isCoinbase_eq,h]

omit [Hashing] in
theorem isCoinbase_eq_false {x : MsgTx} (hop : op∈x.spends) (h : isNullOutPoint op=false) :
    isCoinbase x = false := by
  rw [isCoinbase_eq]
  split
  · next o hs =>
    rw [hs,mem_singleton] at hop
    exact hop ▸ h
  · rfl

theorem Conflicted.not_mined (hU : CollisionFree U) (h : Conflicted U C depth F) (hC : ChainIn U C) :
    ∀ u∈C, u.tx.stripWitness ≠ F.stripWitness := by
  induction h with
  | direct _ plain spends mined _ spent other =>
    intro u hu hstrip
    have hspends := spends_eq_of_strip hstrip
    have hcb : isCoinbase u.tx = false := (isCoinbase_congr hspends).trans plain
    obtain rfl := hC.spentOnce u hu _ mined hcb _ (hspends ▸ spends) spent
    exact other hstrip
  | child _ plain spends hash parent ih =>
    intro u hu hstrip
    have hspends := spends_eq_of_strip hstrip
    have hcb : isCoinbase u.tx = false := (isCoinbase_congr hspends).trans plain
    obtain ⟨x,hx,out,hout⟩ := hC.funded u hu hcb _ (hspends ▸ spends)
    have hxh : _ = x.tx.txHash := x.tx.hash_of_mem_outputs hout
    exact ih x hx (hU _ (hC.known x hx) _ parent.known (hxh.symm.trans hash))

theorem Cleared.dead (hU : CollisionFree U) (h : Cleared U C depth op) (hop : op∈T.spends)
    (hcb : isCoinbase T=false) : (∃ t∈C, depth ≤ t.confirmations ∧ t.tx.unsigned = T.unsigned) ∨
      ((∃ t∈C, depth ≤ t.confirmations ∧ op∈t.tx.spends ∧ t.tx.unsigned ≠ T.unsigned) ∨
          ∃ F, F.txHash = op.hash ∧ Conflicted U C depth F) ∧
        ∀ C', Grows depth C C' → ChainIn U C' → ∀ u∈C', u.tx.unsigned ≠ T.unsigned := by
  have hspends {u : ChainTx} (hu : u.tx.unsigned=T.unsigned) : u.tx.spends = T.spends :=
    MsgTx.spends_eq_of_unsigned_eq hu
  have hplain {u : ChainTx} (hu : u.tx.unsigned=T.unsigned) : isCoinbase u.tx = false :=
    (isCoinbase_congr (hspends hu)).trans hcb
  rcases h with ⟨t,ht,hdeep,hspent⟩ | ⟨F,hhash,hF⟩
  · by_cases heq : t.tx.unsigned = T.unsigned
    · exact .inl ⟨t,ht,hdeep,heq⟩
    · refine .inr ⟨.inl ⟨t,ht,hdeep,hspent,heq⟩,fun C' hgrows hC' u hu huT => ?_⟩
      obtain ⟨t',ht',htx,-⟩ := hgrows t ht hdeep
      obtain rfl := hC'.spentOnce u hu t' ht' (hplain huT) op (hspends huT ▸ hop) (htx ▸ hspent)
      exact heq (htx ▸ huT)
  · refine .inr ⟨.inr ⟨F,hhash,hF⟩,fun C' hgrows hC' u hu huT => ?_⟩
    obtain ⟨x,hx,out,hout⟩ := hC'.funded u hu (hplain huT) op (hspends huT ▸ hop)
    have hxh : op.hash = x.tx.txHash := x.tx.hash_of_mem_outputs hout
    have hF' := hF.grow hgrows
    exact hF'.not_mined hU hC' x hx (hU _ (hC'.known x hx) _ hF'.known (hxh.symm.trans hhash.symm))

/-! ## What a view shows of it -/

def depthOn (rootDepth : ℤ) : ChainName → ℤ
  | .dogecoin => max rootDepth 1
  | .dogecoinVM => 1

/-- What the Dogecoin node answers is so. A transaction it lists at `-1` may be one that only
fell out of its mempool; one it lists as conflicted deeper is. -/
structure Wallet.Answers (w : Wallet) (U : List MsgTx) (C : List ChainTx) : Prop where
  known : ∀ r∈w.gone, r.tx∈U ∧ ∀ p∈r.proofs, ∀ spender, p.spender = some spender → spender∈U
  mined : ∀ e∈w.entries, 0 < e.height → e.conflicted = false →
    ∃ t∈C, t.tx = e.tx ∧ t.confirmations = w.depthOf e
  blocks : ∀ r∈w.gone, ∀ p∈r.proofs, ∀ block, p.block = some block → 1 ≤ block.confirmations →
    ∀ id∈block.txids, ∃ t∈C, t.tx.txHash = id ∧ t.confirmations = block.confirmations
  conflicted : ∀ e∈w.entries, e.conflicted = true → ∀ d, 2 ≤ d → d ≤ e.conflictDepth →
    Conflicted U C d e.tx

/-- What a signer's nodes show is so: what they list in blocks is in the chain, and what they
list as conflicted is what the wallet's history says. -/
structure Reads (U : List MsgTx) (rootDepth : ℤ) (v : SignerView) (chains : ChainName → List ChainTx) :
    Prop where
  depth : v.bridge.rootDepth = rootDepth
  listed : ∀ c, ∀ t∈inBlocks (v.listed c), t∈chains c
  wallet : ∃ (w : Wallet) (touches : MsgTx → Bool) (entries : List HistoryEntry),
    w.history = .ok entries ∧ (∀ t∈v.nodes.dogeConflicted, t∈conflictedFor touches entries) ∧
      w.Answers U (chains .dogecoin)

theorem Conflicted.of_spendsInputOf {t : ChainTx} (hF : F∈U) (ht : t∈C)
    (hdeep : depth≤t.confirmations) (h : spendsInputOf t.tx F=true) : Conflicted U C depth F := by
  simp only [spendsInputOf,Bool.and_eq_true,decide_eq_true_eq,any_eq_true] at h
  obtain ⟨hne,op,hspent,hop,hnull⟩ := h
  refine .direct hF (isCoinbase_eq_false hop ?_) hop ht hdeep hspent fun hstrip => hne ?_
  · simpa using hnull
  · rw [← t.tx.txHash_stripWitness,hstrip,F.txHash_stripWitness]

theorem Wallet.Answers.of_conflictedFor (hU : CollisionFree U) {w : Wallet} (h : w.Answers U C)
    (hC : ChainIn U C) {touches : MsgTx → Bool} {entries : List HistoryEntry} {t : ChainTx}
    (hhistory : w.history = .ok entries) (ht : t∈conflictedFor touches entries) (hdepth : 2≤depth)
    (hle : depth ≤ -t.confirmations) : Conflicted U C depth t.tx := by
  rcases Wallet.of_conflictedFor hhistory ht hdepth hle with ⟨e,he,htx,hconf,hdeep⟩ | ⟨r,hr,htx,hev⟩
  · exact htx ▸ h.conflicted e he hconf depth hdepth hdeep
  · rw [← htx]
    cases hev with
    | @listed e mem height conflicted deep spends =>
      obtain ⟨u,hu,hutx,hconf⟩ := h.mined e mem height conflicted
      exact .of_spendsInputOf (h.known r hr).1 hu (hconf ▸ deep) (hutx ▸ spends)
    | @proven p spender block mem spender_eq block_eq deep holds spends =>
      obtain ⟨u,hu,hhash,hconf⟩ := h.blocks r hr p mem block block_eq (by omega) _ holds
      have hstrip := hU _ (hC.known u hu) _ ((h.known r hr).2 p mem spender spender_eq) hhash
      refine .of_spendsInputOf (h.known r hr).1 hu (hconf ▸ deep) ?_
      rwa [spendsInputOf,hhash,spends_eq_of_strip hstrip]

def SignerView.clears (v : SignerView) (c : ChainName) (op : OutPoint) : Prop :=
  (v.state.view v.bridge c).cleared op = true

/-- A cleared coin is spent, or the transaction that makes it conflicted, at the view's depth. -/
theorem ChainView.of_cleared {w : ChainView} (hdepth : 0<w.depth) (h : w.cleared op=true) :
    (∃ t∈inBlocks w.txs, w.depth ≤ t.confirmations ∧ op∈t.tx.spends) ∨
      ∃ t∈w.conflicted, t.tx.txHash = op.hash ∧ w.depth ≤ -t.confirmations := by
  simp only [cleared,Bool.or_eq_true,decide_eq_true_eq] at h
  rcases h with hspent | hconflict
  · rcases exists_of_le_foldl_max hspent with hle | ⟨x,hx,hle⟩
    · omega
    · obtain ⟨t,ht,rfl⟩ := mem_map.mp hx
      obtain ⟨ht,hin⟩ := mem_filter.mp ht
      exact .inl ⟨t,ht,hle,of_decide_eq_true hin⟩
  · rcases exists_of_le_foldl_max hconflict with hle | ⟨x,hx,hle⟩
    · omega
    · obtain ⟨t,ht,rfl⟩ := mem_map.mp hx
      obtain ⟨ht,hhash⟩ := mem_filter.mp ht
      exact .inr ⟨t,ht,of_decide_eq_true hhash,hle⟩

variable {chains : ChainName → List ChainTx} {rootDepth : ℤ} {log' : SigningLog}

theorem Reads.cleared (hU : CollisionFree U) {v : SignerView} (h : Reads U rootDepth v chains)
    (hchain : ChainIn U (chains .dogecoin)) (hroot : 2 ≤ rootDepth) {c : ChainName}
    (hop : v.clears c op) : Cleared U (chains c) (depthOn rootDepth c) op := by
  have hdepth : (v.state.view v.bridge c).depth = depthOn rootDepth c := by
    cases c with
    | dogecoin =>
      change max (v.bridge.pegLine v.nodes.doge.txs).rootDepth 1 = _
      rw [Bridge.pegLine,newLineage_rootDepth,h.depth]
      rfl
    | dogecoinVM => rfl
  have hpos : 0 < depthOn rootDepth c := by
    cases c with
    | dogecoin => exact lt_of_lt_of_le zero_lt_one (le_max_right _ _)
    | dogecoinVM => exact zero_lt_one
  have htxs : (v.state.view v.bridge c).txs = v.listed c := by cases c <;> rfl
  rcases ChainView.of_cleared (hdepth ▸ hpos) hop with ⟨t,ht,hle,hin⟩ | ⟨t,ht,hhash,hle⟩
  · exact .inl ⟨t,h.listed c t (htxs ▸ ht),hdepth ▸ hle,hin⟩
  · cases c with
    | dogecoin =>
      obtain ⟨w,touches,entries,hhistory,hlisted,hanswers⟩ := h.wallet
      have htwo : 2 ≤ depthOn rootDepth .dogecoin := hroot.trans (le_max_left _ _)
      exact .inr ⟨t.tx,hhash,hanswers.of_conflictedFor hU hchain hhistory (hlisted t ht) htwo (hdepth ▸ hle)⟩
    | dogecoinVM => cases ht

/-! ## What a cutover records -/

namespace SigningLog

def recorded (log : SigningLog) (c : ChainName) : List OutPoint := (log.cutover c).getD []

/-- An input of a transaction of the log, on the chain it was signed for. Where the log does
not name that, no transaction of the other chain has the hash. -/
def Logged (log : SigningLog) (v : SignerView) (c : ChainName) (op : OutPoint) : Prop :=
  ∃ key t, log.Holds key t ∧ op∈t.inputs ∧ (t.chain = some c ∨ t.chain = none ∧
      ∀ c', c' ≠ c → (v.state.view v.bridge c').funding op.hash = none)

def unstarted (log : SigningLog) : Bool := log.history = .unproven && !log.inCutover

end SigningLog

/-- The coins an old signature of the key is known to spend. -/
def Covered (v : SignerView) (log : SigningLog) (c : ChainName) (op : OutPoint) : Prop :=
  op ∈ v.state.shownCoins v.bridge c ∨ log.Logged v c op

variable {v : SignerView} {log : SigningLog} {c : ChainName}

theorem mem_cutoverCoins (h : v.state.cutoverCoins v.bridge log = .ok coins) (hop : Covered v log c op) :
    op ∈ coins c ∨ v.clears c op := by
  simp only [PegState.cutoverCoins,checks_ok] at h
  obtain ⟨logged,hlogged,rfl⟩ := h
  by_cases hclear : v.clears c op
  · exact .inr hclear
  · refine .inl (mem_filter.mpr ⟨mem_append.mpr ?_,?_⟩)
    · rcases hop with hshown | ⟨key,t₀,⟨a,ha,t,ht,hsame⟩,hin,hchain⟩
      · exact .inl hshown
      · rw [← hsame.inputs] at hin
        rw [← hsame.chain] at hchain
        have hentry : (key,t,op)∈log.actions.entries.flatMap fun e =>
            e.2.txs.flatMap fun t => t.inputs.map fun op => (e.1,t,op) :=
          mem_flatMap.mpr ⟨⟨key,a⟩,AList.mem_lookup_iff.mp ha,mem_flatMap.mpr ⟨t,ht,mem_map.mpr ⟨op,hin,rfl⟩⟩⟩
        obtain ⟨q,hq,hres⟩ := mem_of_mapM_ok hlogged _ hentry
        simp only [PegState.loggedInput,checks_ok] at hres
        obtain ⟨c',hc',hfund,rfl⟩ := hres
        refine .inr (mem_map.mpr ⟨(c',op),mem_filter.mpr ⟨hq,decide_eq_true ?_⟩,rfl⟩)
        -- the chain looked up is the one it was signed for
        by_contra hne
        rcases hchain with hsome | ⟨-,hother⟩
        · rw [PegState.inputChain,hsome,Option.some_or,Option.some.injEq] at hc'
          exact hne hc'.symm
        · rw [hother c' hne] at hfund
          cases hfund
    · simpa [SignerView.clears] using hclear

/-! ## What a log says of an old signature -/

/-- A log that was unproven once: after a cutover has started, each coin the transaction `T`
spends is recorded or cleared. -/
structure Settling (U : List MsgTx) (rootDepth : ℤ) (chains : ChainName → List ChainTx) (c : ChainName)
    (T : MsgTx) (log : SigningLog) : Prop where
  fenced : log.history = .fenced → ∀ chain, log.cutover chain = none
  held : log.unstarted = false → ∀ op∈T.spends,
    op ∈ log.recorded c ∨ Cleared U (chains c) (depthOn rootDepth c) op

/-- The coins `T` spends are known to the view, if a cutover is to start with it. -/
def CoversAtStart (v : SignerView) (c : ChainName) (T : MsgTx) (log : SigningLog) : Prop :=
  log.unstarted = true → ∀ op∈T.spends, Covered v log c op

namespace SigningLog

variable {log log' : SigningLog}

omit [Hashing] in
theorem unstarted_of_inCutover (h : log.inCutover=true) : log.unstarted = false := by
  simp [unstarted,h]

omit [Hashing] in
theorem inCutover_of_cutover (h : log.cutover c≠none) : log.inCutover = true := by
  by_contra hout
  exact h (cutover_of_not_inCutover (by simpa using hout) c)

omit [Hashing] in
theorem unstarted_congr (hh : log'.history=log.history) (hc : log'.cutover=log.cutover) :
    log'.unstarted = log.unstarted := by
  rw [unstarted,unstarted,inCutover,inCutover,hh,hc]

omit [Hashing] in
theorem mem_recorded_started {now : ℤ} :
    op ∈ (log.started coins now).recorded c ↔ op∈log.recorded c ∨ op∈coins c := by
  simp [recorded,started,mem_dedup]

end SigningLog

theorem LogStep.covered (hstep : LogStep v log log') (h : Covered v log c op) : Covered v log' c op := by
  rcases h with hshown | ⟨key,t,hholds,hrest⟩
  · exact .inl hshown
  · exact .inr ⟨key,t,hstep.holds hholds,hrest⟩

theorem clears_of_cutoverAfter {chain : ChainName}
    (h : log.cutoverAfter v.state v.bridge chain=none) (hop : op∈log.recorded chain) : v.clears chain op := by
  rw [cutoverAfter] at h
  split at h
  · next hleft =>
    by_contra hnot
    have hmem : op∈log.cutoverLeft v.state v.bridge chain :=
      mem_filter.mpr ⟨hop,by simpa [SignerView.clears] using hnot⟩
    rw [hleft] at hmem
    cases hmem
  · rw [recorded,h] at hop
    cases hop

theorem cutoverAfter_eq {chain : ChainName} (h : log.cutoverAfter v.state v.bridge chain≠none) :
    log.cutoverAfter v.state v.bridge chain = log.cutover chain := by
  rw [cutoverAfter] at h ⊢
  split at h
  · exact absurd rfl h
  · next hleft => rw [if_neg hleft]

section Steps

variable {rootDepth : ℤ} {chains : ChainName → List ChainTx} {log' : SigningLog}

theorem Settling.congr (h : Settling U rootDepth chains c T log)
    (hh : log'.history=log.history) (hc : log'.cutover=log.cutover) : Settling U rootDepth chains c T log' where
  fenced hf chain := by rw [hc]; exact h.fenced (hh ▸ hf) chain
  held hs op hop := by
    rw [recorded,hc]
    exact h.held (unstarted_congr hh hc ▸ hs) op hop

variable (hU : CollisionFree U) (hchain : ChainIn U (chains .dogecoin)) (hroot : 2 ≤ rootDepth)
  (hreads : Reads U rootDepth v chains)

include hU hchain hroot hreads

theorem Settling.started {filled : SigningLog}
    (h : Settling U rootDepth chains c T log) (hcovers : CoversAtStart v c T log)
    (hcutover : filled.cutover=log.cutover)
    (hfilled : ∀ op, Covered v log c op → Covered v filled c op)
    (hcoins : v.state.cutoverCoins v.bridge filled = .ok coins) :
    Settling U rootDepth chains c T (({ filled with history := .unproven }).started coins v.unix) where
  fenced hf := by cases hf
  held _ op hop := by
    rw [mem_recorded_started]
    cases hstart : log.unstarted with
    | true =>
      rcases mem_cutoverCoins hcoins (hfilled op (hcovers hstart op hop)) with hmem | hclear
      · exact .inl (.inr hmem)
      · exact .inr (hreads.cleared hU hchain hroot hclear)
    | false =>
      rcases h.held hstart op hop with hrec | hclear
      · refine .inl (.inl ?_)
        rwa [recorded,hcutover]
      · exact .inr hclear

theorem LogStep.settling (hstep : LogStep v log log') (h : Settling U rootDepth chains c T log)
    (hcovers : CoversAtStart v c T log) : Settling U rootDepth chains c T log' ∧ CoversAtStart v c T log' := by
  -- a step that leaves the cutover as it is
  have hsame (hh : log'.history=log.history) (hc : log'.cutover=log.cutover) :
      Settling U rootDepth chains c T log' ∧ CoversAtStart v c T log' := by
    refine ⟨h.congr hh hc,fun hs op hop => hstep.covered (hcovers ?_ op hop)⟩
    rwa [unstarted_congr hh hc] at hs
  -- a step into the cutover
  have hnot {l : SigningLog} (hl : l.unstarted=false) : CoversAtStart v c T l := fun hs => by
    rw [hl] at hs
    cases hs
  cases hstep with
  | started history coins_eq =>
    have hs := h.started hU hchain hroot hreads hcovers rfl (fun _ hop => hop) coins_eq
    rw [← history] at hs
    exact ⟨hs,hnot (unstarted_of_inCutover rfl)⟩
  | fenced anchors within after =>
    refine ⟨⟨fun _ _ => rfl, fun _ op hop => ?_⟩,hnot (by simp [unstarted])⟩
    rcases h.held (unstarted_of_inCutover within) op hop with hrec | hclear
    · exact .inr (hreads.cleared hU hchain hroot (clears_of_cutoverAfter (after c) hrec))
    · exact .inr hclear
  | narrowed after =>
    obtain ⟨chain,hleft⟩ := after
    have hwithin : log.inCutover = true := by
      refine inCutover_of_cutover (c := chain) fun hnone => hleft ?_
      simp [cutoverAfter,hnone]
    have hstarted := unstarted_of_inCutover hwithin
    refine ⟨⟨fun hf => ?_, fun _ op hop => ?_⟩,hnot (unstarted_of_inCutover (inCutover_of_cutover hleft))⟩
    · refine absurd ?_ hleft
      simp [cutoverAfter,h.fenced hf chain]
    · rcases h.held hstarted op hop with hrec | hclear
      · by_cases hc : log.cutoverAfter v.state v.bridge c = none
        · exact .inr (hreads.cleared hU hchain hroot (clears_of_cutoverAfter hc hrec))
        · refine .inl ?_
          change op ∈ (log.cutoverAfter v.state v.bridge c).getD []
          rwa [cutoverAfter_eq hc]
      · exact .inr hclear
  | adopted adopted_eq =>
    obtain ⟨missing,anchors,coins,hcoins,rfl⟩ := v.adopted_ok adopted_eq
    obtain ⟨hcutover,hholds⟩ := foldl_adoptTx missing log
    refine ⟨h.started hU hchain hroot hreads hcovers hcutover (fun op hop => ?_) hcoins,
      hnot (unstarted_of_inCutover rfl)⟩
    rcases hop with hshown | ⟨key,t,ht,hrest⟩
    · exact .inl hshown
    · exact .inr ⟨key,t,hholds key t ht,hrest⟩
  | learned => exact hsame rfl rfl
  | budgeted => exact hsame rfl rfl
  | recorded => exact hsame rfl rfl
  | anchored => exact hsame rfl rfl

end Steps

theorem Settling.grow {chains chains' : ChainName → List ChainTx}
    (h : Settling U rootDepth chains c T log) (hgrows : Grows (depthOn rootDepth c) (chains c) (chains' c)) :
    Settling U rootDepth chains' c T log where
  fenced := h.fenced
  held hs op hop := (h.held hs op hop).imp_right fun hclear => hclear.grow hgrows

theorem settling_of_unstarted (h : log.unstarted=true) : Settling U rootDepth chains c T log := by
  have hhistory : log.history = .unproven := by
    simp only [unstarted,Bool.and_eq_true,decide_eq_true_eq] at h
    exact h.1
  refine ⟨fun hf => ?_, fun hs => ?_⟩
  · rw [hhistory] at hf
    cases hf
  · rw [h] at hs
    cases hs

/-! ## Runs -/

/-- The two chains, and a signer that reads them. -/
structure Watched where
  chains : ChainName → List ChainTx
  signer : Signer

def Watched.All (w : Watched) (P : SigningLog → Prop) : Prop :=
  P w.signer.log ∧ ∀ file∈w.signer.files, P file

/-- One step: a command, with what the nodes show then; a restart; or blocks. `old` are the
transactions the key signed before: whatever they spend is known when a cutover starts. -/
inductive WatchStep (U : List MsgTx) (rootDepth : ℤ) (old : ChainName → Set MsgTx) (w : Watched) :
    Watched → Prop where
  | command {v : SignerView} (command : Command) (reads : Reads U rootDepth v w.chains)
      (covers : w.signer.log.unstarted = true → (v.run command w.signer).log.unstarted = false →
        ∀ c, ∀ T∈old c, ∀ op∈T.spends, Covered v w.signer.log c op) :
      WatchStep U rootDepth old w ⟨w.chains,v.run command w.signer⟩
  | restart {st : Signer} (restarts : Restarts w.signer st) : WatchStep U rootDepth old w ⟨w.chains,st⟩
  | grow {chains : ChainName → List ChainTx}
      (grows : ∀ c, Grows (depthOn rootDepth c) (w.chains c) (chains c))
      (valid : ∀ c, ChainIn U (chains c)) : WatchStep U rootDepth old w ⟨chains,w.signer⟩

variable {rootDepth : ℤ} {old : ChainName → Set MsgTx} {w w' : Watched}

theorem WatchStep.valid (h : WatchStep U rootDepth old w w') (hw : ∀ c, ChainIn U (w.chains c)) :
    ∀ c, ChainIn U (w'.chains c) := by
  cases h with
  | command => exact hw
  | restart => exact hw
  | grow _ valid => exact valid

theorem LogStep.unstarted_false (hstep : LogStep v log log')
    (h : log.unstarted=false) : log'.unstarted = false := by
  cases hstep with
  | started => exact unstarted_of_inCutover rfl
  | fenced => simp [unstarted]
  | narrowed after =>
    obtain ⟨chain,hleft⟩ := after
    exact unstarted_of_inCutover (inCutover_of_cutover hleft)
  | adopted adopted_eq =>
    obtain ⟨missing,anchors,coins,-,rfl⟩ := v.adopted_ok adopted_eq
    exact unstarted_of_inCutover rfl
  | learned => exact h
  | budgeted => exact h
  | recorded => exact h
  | anchored => exact h

theorem unstarted_false_of_steps (h : ReflTransGen (LogStep v) log log')
    (hlog : log.unstarted=false) : log'.unstarted = false := by
  induction h with
  | refl => exact hlog
  | tail _ hs ih => exact hs.unstarted_false ih

theorem WatchStep.settling (hU : CollisionFree U) (hroot : 2 ≤ rootDepth)
    (hstep : WatchStep U rootDepth old w w') (hw : ∀ c, ChainIn U (w.chains c)) (hT : T∈old c)
    (h : w.All (Settling U rootDepth w.chains c T)) : w'.All (Settling U rootDepth w'.chains c T) := by
  obtain ⟨hlog,hfiles⟩ := h
  cases hstep with
  | @command v command reads covers =>
    have hran := v.run_ran command w.signer
    -- a log on the way to the end, where a cutover has started or has not
    have hway {l : SigningLog} (hfrom : ReflTransGen (LogStep v) w.signer.log l)
        (hto : ReflTransGen (LogStep v) l (v.run command w.signer).log) : Settling U rootDepth w.chains c T l := by
      cases hl : l.unstarted with
      | true => exact settling_of_unstarted hl
      | false =>
        have hcovers : CoversAtStart v c T w.signer.log :=
          fun hs => covers hs (unstarted_false_of_steps hto hl) c T hT
        have hboth : Settling U rootDepth w.chains c T l ∧ CoversAtStart v c T l := by
          clear hto hl
          induction hfrom with
          | refl => exact ⟨hlog,hcovers⟩
          | tail _ hs ih => exact hs.settling hU (hw .dogecoin) hroot reads ih.1 ih.2
        exact hboth.1
    refine ⟨hway hran.log .refl,fun file hfile => ?_⟩
    rcases hran.files file hfile with hold | ⟨hfrom,hto⟩
    · exact hfiles file hold
    · exact hway hfrom hto
  | restart restarts =>
    obtain ⟨file,hfile,hreread⟩ := restarts.reread
    exact ⟨(hfiles file hfile).congr hreread.history hreread.cutover,
      fun file hfile => hfiles file (restarts.files file hfile)⟩
  | grow grows => exact ⟨hlog.grow (grows c),fun file hfile => (hfiles file hfile).grow (grows c)⟩

theorem settling_of_run (hU : CollisionFree U) (hroot : 2 ≤ rootDepth)
    (hrun : ReflTransGen (WatchStep U rootDepth old) w w') (hw : ∀ c, ChainIn U (w.chains c))
    (hT : T∈old c) (h : w.All (Settling U rootDepth w.chains c T)) :
    w'.All (Settling U rootDepth w'.chains c T) ∧ ∀ c, ChainIn U (w'.chains c) := by
  induction hrun with
  | refl => exact ⟨h,hw⟩
  | tail _ hs ih => exact ⟨hs.settling hU hroot ih.2 hT ih.1,hs.valid ih.2⟩

/-! ## Until then, fences only -/

theorem LogStep.history_ne_new (hstep : LogStep v log log') (h : log.history ≠ .new) : log'.history ≠ .new := by
  cases hstep with
  | fenced => simp
  | adopted adopted_eq =>
    obtain ⟨missing,anchors,coins,-,rfl⟩ := v.adopted_ok adopted_eq
    simp [SigningLog.started]
  | _ => exact h

theorem history_ne_new_of_run (hrun : ReflTransGen (WatchStep U rootDepth old) w w')
    (h : w.All fun log => log.history ≠ .new) : w'.All fun log => log.history ≠ .new := by
  induction hrun with
  | refl => exact h
  | tail _ hs ih =>
    cases hs with
    | @command v command =>
      have hran := v.run_ran command
      exact ⟨(hran _).keeps_log (fun _ _ hs => hs.history_ne_new) ih.1,
        (hran _).keeps_files (fun _ _ hs => hs.history_ne_new) ih.1 ih.2⟩
    | restart restarts =>
      obtain ⟨file,hfile,hreread⟩ := restarts.reread
      refine ⟨fun hnew => ih.2 file hfile ?_, fun file hfile => ih.2 file (restarts.files file hfile)⟩
      rw [← hreread.history]
      exact hnew
    | grow => exact ih

theorem SignerView.isFence_of_handleSign {req : SignRequest} {st : Signer} {draft : Draft}
    (hnew : st.log.history ≠ .new) (hsign : (v.handleSign req st).1 = .ok draft)
    (hfenced : (v.handleSign req st).2.log.history ≠ .fenced) : req.action.isFence = true := by
  rcases handleSign_cases v req st with ⟨e,-,hrun⟩ | ⟨d,hcheck,hlog,-⟩
  · rw [hrun] at hsign
    cases hsign
  · by_contra hact
    obtain ⟨gated,learnt,ha⟩ := check_ok hcheck
    -- the gate lets nothing else through before the log is fenced
    have hgate := ha.gate
    rw [gate,if_neg hact,cutoverGate] at hgate
    simp only [Stage.bind_ok,Stage.reads_ok,ensure_eq_ok] at hgate
    obtain ⟨_,advanced,-,hproven,heq⟩ := hgate
    rw [heq] at hproven
    have hran : Ran (LogStep v) st (v.gate req st).2 := gate_ran st
    rw [ha.gate] at hran
    have hne : gated.log.history ≠ .new := hran.keeps_log (fun _ _ hs => hs.history_ne_new) hnew
    have hgated : gated.log.history = .fenced := by
      cases hh : gated.log.history with
      | unproven => simp [unproven,hh] at hproven
      | new => exact absurd hh hne
      | fenced => rfl
    obtain ⟨budget,capital,hbudget⟩ := budgetRoom_log v req d learnt
    rw [ha.budget] at hbudget
    have hlearn := learnSigned_log (v := v) gated
    rw [ha.learn] at hlearn
    refine hfenced ?_
    rw [hlog,record,hbudget,hlearn]
    exact hgated

/-! ## The cutover -/

/-- Of a signer whose log was unproven: once its history is fenced, each transaction its key
signed before the cutover is in a block, or is never in one, since what it spends is spent, or
was to be made by what is conflicted, deep. Until then it signs fences alone. -/
theorem cutover_sound (hU : CollisionFree U) (hroot : 2 ≤ rootDepth)
    (hstart : w.All fun log => log.unstarted = true) (hvalid : ∀ c, ChainIn U (w.chains c))
    (hold : ∀ c, ∀ T∈old c, T.spends ≠ [] ∧ isCoinbase T = false)
    (hrun : ReflTransGen (WatchStep U rootDepth old) w w') :
    (w'.signer.log.history = .fenced → ∀ c, ∀ T∈old c, (∃ t∈w'.chains c, t.tx.unsigned = T.unsigned) ∨
        (∃ op∈T.spends, (∃ t∈w'.chains c, depthOn rootDepth c ≤ t.confirmations ∧ op∈t.tx.spends ∧
            t.tx.unsigned ≠ T.unsigned) ∨
          ∃ F, F.txHash = op.hash ∧ Conflicted U (w'.chains c) (depthOn rootDepth c) F) ∧
        ∀ C', Grows (depthOn rootDepth c) (w'.chains c) C' → ChainIn U C' → ∀ u∈C', u.tx.unsigned ≠ T.unsigned) ∧
      ∀ (v : SignerView) (req : SignRequest) (draft : Draft), (v.handleSign req w'.signer).1 = .ok draft →
        (v.handleSign req w'.signer).2.log.history ≠ .fenced → req.action.isFence = true := by
  refine ⟨fun hfenced c T hT => ?_, fun v req draft hsign hnot => ?_⟩
  · have hsettling : w.All (Settling U rootDepth w.chains c T) :=
      ⟨settling_of_unstarted hstart.1,fun file hfile => settling_of_unstarted (hstart.2 file hfile)⟩
    obtain ⟨⟨hlog,-⟩,-⟩ := settling_of_run hU hroot hrun hvalid hT hsettling
    obtain ⟨hne,hcb⟩ := hold c T hT
    obtain ⟨op,hop⟩ := exists_mem_of_ne_nil _ hne
    -- nothing is recorded any more, so the coin is cleared
    have hcleared : Cleared U (w'.chains c) (depthOn rootDepth c) op := by
      rcases hlog.held (by simp [unstarted,hfenced]) op hop with hrec | hclear
      · rw [recorded,hlog.fenced hfenced c] at hrec
        cases hrec
      · exact hclear
    rcases hcleared.dead hU hop hcb with ⟨t,ht,-,heq⟩ | ⟨hwhy,hnever⟩
    · exact .inl ⟨t,ht,heq⟩
    · exact .inr ⟨⟨op,hop,hwhy⟩,hnever⟩
  · have hhistory {log : SigningLog} (h : log.unstarted=true) : log.history ≠ .new := by
      simp only [unstarted,Bool.and_eq_true,decide_eq_true_eq] at h
      simp [h.1]
    have hne := history_ne_new_of_run hrun ⟨hhistory hstart.1,fun file hfile => hhistory (hstart.2 file hfile)⟩
    exact SignerView.isFence_of_handleSign hne.1 hsign hnot

end

section Sample

attribute [local instance] sampleHashing

/-- A deposit, what it is paid from, a transaction that spends it and was kept back, and one
that spends it back to the set. -/
def lostFunds : MsgTx := sampleTx ⟨0,0xffffffff⟩ [⟨60,[2]⟩]

def lostDeposit : MsgTx := sampleTx (lostFunds.outPoint 0) [⟨50,sampleBridge.script⟩]

def keptBack : MsgTx := sampleTx (lostDeposit.outPoint 0) [⟨40,[3]⟩]

def spentBack : MsgTx := sampleTx (lostDeposit.outPoint 0) [⟨45,sampleBridge.script⟩]

def lostTxs : List MsgTx := [lostFunds,lostDeposit,keptBack,spentBack]

def onlyKeptBack : ChainName → Set MsgTx
  | .dogecoin => {keptBack}
  | .dogecoinVM => ∅

def onDogecoin (txs : List ChainTx) : ChainName → List ChainTx
  | .dogecoin => txs
  | .dogecoinVM => []

def unprovenLog : SigningLog := { sampleLog (fun _ => none) with history := .unproven }

def lostStart : Watched := ⟨onDogecoin [⟨lostFunds,20,0⟩],unprovenLog,[unprovenLog],false⟩

/-- What a signer sees of Dogecoin, with nothing on DogecoinVM. -/
def dogeView (b : Bridge) (doge : Listing) (conflicted : List ChainTx) : SignerView :=
  sampleView b ⟨.empty,doge,conflicted⟩

def unminedView (b : Bridge) : SignerView :=
  dogeView b (.of [⟨lostDeposit,0,0⟩]) []

/-- The deposit fell out of the mempool, and the wallet lists it no more. -/
def droppedView : SignerView := dogeView sampleBridge .empty [⟨lostDeposit,-1,0⟩]

/-- A bridge that waits for six confirmations, and what it sees once the deposit is spent. -/
def patientBridge : Bridge := { sampleBridge with depositConfirmations := 6 }

def spentView : SignerView :=
  dogeView patientBridge (.of [⟨lostDeposit,8,0⟩,⟨spentBack,7,0⟩]) []

theorem lostTxs_apart : CollisionFree lostTxs := .of_nodup (by decide +kernel)

theorem onDogecoin_valid {txs : List ChainTx} (h : ChainIn lostTxs txs) (c : ChainName) :
    ChainIn lostTxs (onDogecoin txs c) := by
  cases c with
  | dogecoin => exact h
  | dogecoinVM => exact ⟨by simp [onDogecoin], by simp [onDogecoin], by simp [onDogecoin], by simp [onDogecoin]⟩

theorem lostStart_valid (c : ChainName) : ChainIn lostTxs (lostStart.chains c) :=
  onDogecoin_valid (.of_listed (by simp [lostTxs]) (by simp) (by decide +kernel) (by decide +kernel)) c

theorem lostStart_unstarted : lostStart.All fun log => log.unstarted = true :=
  ⟨rfl,fun _ hfile => mem_singleton.mp hfile ▸ rfl⟩

theorem keptBack_spends (c : ChainName) (T : MsgTx) (hT : T∈onlyKeptBack c) :
    T.spends ≠ [] ∧ isCoinbase T = false := by
  cases c with
  | dogecoin =>
    obtain rfl := Set.mem_singleton_iff.mp hT
    exact ⟨by simp [keptBack,MsgTx.spends], by decide +kernel⟩
  | dogecoinVM => cases hT

theorem reads_of_listed {b : Bridge} {doge : Listing} {C : List ChainTx}
    (h : ∀ t∈inBlocks doge.txs, t∈C) : Reads lostTxs b.rootDepth (dogeView b doge []) (onDogecoin C) where
  depth := rfl
  listed c := by
    cases c with
    | dogecoin => exact h
    | dogecoinVM => exact fun _ ht => by cases ht
  wallet := by
    refine ⟨⟨0,[],[]⟩,fun _ => true, [], rfl, fun _ ht => ?_, ⟨?_,?_,?_,?_⟩⟩
    · cases ht
    all_goals simp

/-- The wallet's history of the dropped deposit: no evidence is listed as a depth of one. -/
theorem droppedView_reads : Reads lostTxs sampleBridge.rootDepth droppedView (onDogecoin [⟨lostFunds,20,0⟩]) where
  depth := rfl
  listed c := by cases c <;> exact fun _ ht => by cases ht
  wallet := by
    refine ⟨⟨0,[],[⟨lostDeposit,0,[],false⟩]⟩,fun _ => true, [⟨lostDeposit,0,true,0,0⟩], rfl,
      fun t ht => ?_, ⟨?_,by simp, by simp, by simp⟩⟩
    · obtain rfl := mem_singleton.mp ht
      exact mem_singleton_self _
    · intro r hr
      obtain rfl := mem_singleton.mp hr
      exact ⟨by simp [lostTxs], by simp⟩

theorem unminedView_covers (b : Bridge) (hscript : lostDeposit.outPoint 0 ∈
      (unminedView b).state.shownCoins (unminedView b).bridge .dogecoin) (c : ChainName) (T : MsgTx)
    (hT : T∈onlyKeptBack c) : ∀ op∈T.spends, Covered (unminedView b) unprovenLog c op := by
  cases c with
  | dogecoin =>
    obtain rfl := Set.mem_singleton_iff.mp hT
    intro op hop
    obtain rfl := mem_singleton.mp hop
    exact .inl hscript
  | dogecoinVM => cases hT

def cutoverSigner (b : Bridge) : Signer := (unminedView b).run .status lostStart.signer

theorem lostStart_starts (b : Bridge) (hscript : lostDeposit.outPoint 0 ∈
      (unminedView b).state.shownCoins (unminedView b).bridge .dogecoin) :
    WatchStep lostTxs b.rootDepth onlyKeptBack lostStart ⟨lostStart.chains,cutoverSigner b⟩ :=
  .command .status (reads_of_listed (by decide +kernel)) fun _ _ => unminedView_covers b hscript

/-- At a depth of one, the log is fenced although nothing conflicts with the deposit: once it
is mined after all, so is what was kept back. -/
theorem dropped_deposit_fenced : CollisionFree lostTxs ∧ lostStart.All (fun log => log.unstarted = true) ∧
      (∀ c, ChainIn lostTxs (lostStart.chains c)) ∧ keptBack∈onlyKeptBack .dogecoin ∧
      ∃ w, ReflTransGen (WatchStep lostTxs 1 onlyKeptBack) lostStart w ∧ w.signer.log.history = .fenced ∧
        (∀ t∈w.chains .dogecoin, t.tx.unsigned ≠ keptBack.unsigned) ∧
        ∃ C', Grows (depthOn 1 .dogecoin) (w.chains .dogecoin) C' ∧ ChainIn lostTxs C' ∧ ∃ u∈C', u.tx = keptBack := by
  refine ⟨lostTxs_apart,lostStart_unstarted,lostStart_valid,rfl,
    ⟨lostStart.chains,droppedView.run .status (cutoverSigner sampleBridge)⟩,?_,by decide +kernel, ?_,
      [⟨lostFunds,22,0⟩,⟨lostDeposit,2,0⟩,⟨keptBack,1,0⟩], ?_, ?_, ?_⟩
  · refine .tail (.single (lostStart_starts sampleBridge (by decide +kernel))) ?_
    exact .command .status droppedView_reads fun hs => absurd hs (by decide +kernel)
  · intro t ht heq
    obtain rfl := mem_singleton.mp ht
    exact absurd (congrArg MsgTx.txOut heq) (by decide)
  · intro t ht _
    obtain rfl := mem_singleton.mp ht
    exact ⟨⟨lostFunds,22,0⟩,by simp, rfl, by decide⟩
  · exact .of_listed (by simp [lostTxs]) (by simp) (by decide +kernel) (by decide +kernel)
  · exact ⟨⟨keptBack,1,0⟩,by simp, rfl⟩

/-- The chain once the deposit is spent, and the signer once it has seen it. -/
def spentChain : List ChainTx := [⟨lostFunds,28,0⟩,⟨lostDeposit,8,0⟩,⟨spentBack,7,0⟩]

def spentEnd : Watched :=
  ⟨onDogecoin spentChain,spentView.run .status (cutoverSigner patientBridge)⟩

theorem spentEnd_reached :
    ReflTransGen (WatchStep lostTxs patientBridge.rootDepth onlyKeptBack) lostStart spentEnd := by
  have hvalid : ChainIn lostTxs spentChain :=
    .of_listed (by simp [spentChain,lostTxs]) (by simp [spentChain]) (by decide +kernel) (by decide +kernel)
  have hgrows (c : ChainName) : Grows (depthOn patientBridge.rootDepth c) (lostStart.chains c)
      (onDogecoin spentChain c) := by
    cases c with
    | dogecoin =>
      intro t ht _
      obtain rfl := mem_singleton.mp ht
      exact ⟨⟨lostFunds,28,0⟩,mem_cons_self ..,rfl,by decide⟩
    | dogecoinVM => exact fun _ ht => by cases ht
  refine .tail (.tail (.single (lostStart_starts patientBridge (by decide +kernel)))
    (.grow hgrows (onDogecoin_valid hvalid))) ?_
  refine .command .status (reads_of_listed fun t ht => ?_) fun hs => absurd hs (by decide +kernel)
  exact mem_cons_of_mem _ (mem_inBlocks.mp ht).1

/-- What was kept back is never mined, once the deposit is spent deep. -/
theorem keptBack_never_mined :
    ¬∃ C', Grows (depthOn patientBridge.rootDepth .dogecoin) spentChain C' ∧ ChainIn lostTxs C' ∧
      ∃ u∈C', u.tx.unsigned = keptBack.unsigned := by
  rintro ⟨C',hgrows,hC',u,hu,heq⟩
  rcases (cutover_sound lostTxs_apart (by decide) lostStart_unstarted lostStart_valid keptBack_spends
    spentEnd_reached).1 (by decide +kernel) .dogecoin keptBack rfl with ⟨t,ht,htx⟩ | ⟨-,hnever⟩
  · -- no transaction of the chain pays what it does
    have hout : ∀ t∈spentChain, t.tx.txOut.map (·.value) ≠ [40] := by decide
    refine hout t ht ?_
    rw [← t.tx.unsigned_txOut,htx]
    rfl
  · exact hnever C' hgrows hC' u hu heq

end Sample

end DogePeg
