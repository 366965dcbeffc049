import DogePeg.Lib.Checks
import DogePeg.Wire
import Mathlib.Data.List.AList
import Mathlib.Data.List.Induction

/-!
# Reading the Dogecoin wallet since the last read

`walletEntries` asks Dogecoin Core only for what is not buried at the block where it last read, and for
everything when that block left the main chain or when the wallet's count says something is missing
(`cmd/dogevm/chains.go`). What it returns is what reading everything would.
-/

namespace DogePeg

open Checks List Option

variable {i h : ℕ}

/-! ## The reads -/

/-- `historyEntry`, under the transaction's identifier. -/
structure WalletEntry where
  height : ℤ
  conflicted : Bool
  conflictDepth : ℤ
  time : ℤ
  deriving DecidableEq

abbrev WalletEntries := AList fun _ : Hash => WalletEntry

structure SinceEntry where
  txid : Hash
  confirmations : ℤ
  time : ℤ

structure HeaderAnswer where
  confirmations : ℤ
  height : ℤ

/-- Dogecoin Core during one call, which may fail to answer. -/
structure WalletRpc where
  getblockheader : Hash → Option HeaderAnswer
  listsinceblock : Option Hash → Option (List SinceEntry × Hash)
  getwalletinfo : Option ℕ

inductive ReadError where
  | listsinceblock
  | getblockheader
  | getwalletinfo

structure WalletHistory where
  entries : WalletEntries
  last : Option Hash

def WalletHistory.new : WalletHistory := ⟨∅,none⟩

/-- The entry of a listed transaction, with the tip at a height. -/
def SinceEntry.entry (e : SinceEntry) (tip : ℤ) : WalletEntry where
  height := if 0 < e.confirmations then tip-e.confirmations+1 else 0
  conflicted := e.confirmations < 0
  conflictDepth := if e.confirmations < 0 then -e.confirmations else 0
  time := e.time

namespace WalletRpc

variable (r : WalletRpc)

/-- The block a read starts from: none, for everything, unless the last one is still on the main
chain. -/
def since (full : Bool) (hist : WalletHistory) : Option Hash :=
  if full then none
  else hist.last.filter fun last => (r.getblockheader last).any fun at_ => 1 ≤ at_.confirmations

def readHistory (full : Bool) (hist : WalletHistory) : Except ReadError (ℤ × WalletHistory) := do
  let start := r.since full hist
  let (txs,lastBlock) ← found (r.listsinceblock start) .listsinceblock
  let header ← found (r.getblockheader lastBlock) .getblockheader
  let entries := if start.isNone then ∅ else hist.entries
  return (header.height,⟨txs.foldl (fun m e => m.insert e.txid (e.entry header.height)) entries,some lastBlock⟩)

/-- `walletEntries`. What was read before a failure is kept. -/
def walletEntries (hist : WalletHistory) : Except ReadError (ℤ × WalletEntries) × WalletHistory :=
  match r.readHistory false hist with
  | .error e => (.error e,hist)
  | .ok (tip,hist) =>
    match r.getwalletinfo with
    | none => (.error .getwalletinfo,hist)
    | some txCount =>
      if txCount = hist.entries.keys.length then (.ok (tip,hist.entries),hist)
      else
        match r.readHistory true hist with
        | .error e => (.error e,hist)
        | .ok (tip,hist) => (.ok (tip,hist.entries),hist)

end WalletRpc

/-! ## The node -/

structure MainBlock where
  hash : Hash
  txids : List Hash
  deriving DecidableEq

/-- Dogecoin Core at one moment: its main chain from the genesis block, the transactions of its
wallet, the depth of what one conflicts with (zero if it does not), and the time it shows for it. -/
structure WalletNode where
  chain : List MainBlock
  wallet : List Hash
  nodup : wallet.Nodup
  conflictDepth : Hash → ℕ
  time : Hash → ℤ

namespace WalletNode

variable (s : WalletNode)

def heightOf (txid : Hash) : Option ℕ := s.chain.findIdx? fun b => txid ∈ b.txids

def confirmations (txid : Hash) : ℤ :=
  match s.heightOf txid with
  | some h => s.chain.length-h
  | none => -(s.conflictDepth txid)

def tip : ℤ := s.chain.length-1

def listing (txid : Hash) : SinceEntry := ⟨txid,s.confirmations txid,s.time txid⟩

def entryOf (txid : Hash) : WalletEntry := (s.listing txid).entry s.tip

/-- A transaction is in the block `hash` of the main chain, or below it. -/
def Buried (hash txid : Hash) : Prop :=
  ∃ (h : ℕ) (b : MainBlock), s.chain[h]? = some b ∧ b.hash = hash ∧ ∃ i ≤ h, s.heightOf txid = some i

/-- What the calls made at one moment may answer. `listsinceblock` may list a transaction once for
each of its outputs. -/
structure Answers (r : WalletRpc) : Prop where
  header : ∀ hash a, r.getblockheader hash = some a → 1 ≤ a.confirmations → ∃ b∈s.chain, b.hash = hash
  since : ∀ start txs last, r.listsinceblock start = some (txs,last) →
    (∃ b, s.chain.getLast? = some b ∧ b.hash = last) ∧
      (∀ e∈txs, e.txid∈s.wallet ∧ e = s.listing e.txid) ∧
      ∀ txid∈s.wallet, (∀ hash, start = some hash → ¬ s.Buried hash txid) → ∃ e∈txs, e.txid = txid
  tip : ∀ b, s.chain.getLast? = some b → ∀ a, r.getblockheader b.hash = some a → a.height = s.tip
  info : ∀ n, r.getwalletinfo = some n → n = s.wallet.length

/-- What lies between two moments: blocks, reorganisations, new, dropped and conflicted
transactions, imports. The wallet forgets nothing, a block's hash fixes the blocks below it, and a
transaction's time does not change while its block stays. -/
structure Later (s s' : WalletNode) : Prop where
  wallet : ∀ txid∈s.wallet, txid∈s'.wallet
  linked : ∀ (h : ℕ) (b : MainBlock) (h' : ℕ) (b' : MainBlock), s.chain[h]? = some b → s'.chain[h']? = some b' →
    b.hash = b'.hash →
    h = h' ∧ s.chain.take (h+1) = s'.chain.take (h+1)
  time : ∀ (h : ℕ) (b : MainBlock), s.chain[h]? = some b → s'.chain[h]? = some b → ∀ txid∈b.txids, txid∈s.wallet →
    s'.time txid = s.time txid

variable {s} {s' : WalletNode} {txid : Hash}

theorem exists_block_of_heightOf (h : s.heightOf txid=some i) : ∃ b, s.chain[i]? = some b ∧ txid∈b.txids := by
  obtain ⟨hlt,hmem,-⟩ := List.findIdx?_eq_some_iff_getElem.mp h
  exact ⟨s.chain[i],List.getElem?_eq_getElem hlt,of_decide_eq_true hmem⟩

theorem entryOf_of_heightOf (h : s.heightOf txid=some i) : s.entryOf txid = ⟨i,false,0,s.time txid⟩ := by
  obtain ⟨hlt,-⟩ := List.findIdx?_eq_some_iff_getElem.mp h
  have hconf : s.confirmations txid = s.chain.length-i := by rw [confirmations,h]
  have hpos : 0 < s.confirmations txid := by omega
  have hheight : s.tip-s.confirmations txid+1 = i := by
    rw [hconf,tip]
    omega
  have hneg : ¬ s.confirmations txid < 0 := by omega
  rw [entryOf,SinceEntry.entry,listing]
  dsimp only
  rw [if_pos hpos,if_neg hneg,decide_eq_false hneg,hheight]

theorem heightOf_of_take (htake : s.chain.take (h+1)=s'.chain.take (h+1)) (hi : i≤h)
    (hheight : s'.heightOf txid=some i) : s.heightOf txid = some i := by
  have hlen : ∀ c : List MainBlock, i < c.length → i < (c.take (h+1)).length := fun c hc => by
    rw [length_take]
    omega
  obtain ⟨hlt,-⟩ := List.findIdx?_eq_some_iff_getElem.mp hheight
  rw [heightOf,← take_append_drop (h+1) s'.chain,List.findIdx?_append] at hheight
  rw [heightOf,← take_append_drop (h+1) s.chain,List.findIdx?_append,htake]
  cases hbefore : (s'.chain.take (h+1)).findIdx? fun b => txid ∈ b.txids with
  | some j =>
    rw [hbefore,some_or] at hheight
    rw [some_or,hheight]
  | none =>
    -- a later block would be above `h`
    rw [hbefore,none_or,map_eq_some_iff] at hheight
    obtain ⟨j,-,hj⟩ := hheight
    have := hlen s'.chain hlt
    omega

theorem Later.entryOf_eq {hash : Hash} (hlater : s.Later s') (hold : ∃ b∈s.chain, b.hash = hash)
    (hburied : s'.Buried hash txid) (hmem : txid∈s.wallet) : s'.entryOf txid = s.entryOf txid := by
  obtain ⟨h',b',hb',hhash',i,hi,hheight'⟩ := hburied
  obtain ⟨b,hb,hhash⟩ := hold
  obtain ⟨h,hb⟩ := mem_iff_getElem?.mp hb
  obtain ⟨rfl,htake⟩ := hlater.linked h b h' b' hb hb' (hhash.trans hhash'.symm)
  have hheight := heightOf_of_take htake hi hheight'
  obtain ⟨c,hc,hin⟩ := exists_block_of_heightOf hheight
  have hc' : s'.chain[i]? = some c := by
    rw [← List.getElem?_take_of_lt (Nat.lt_succ_of_le hi),← htake,List.getElem?_take_of_lt (Nat.lt_succ_of_le hi),hc]
  rw [entryOf_of_heightOf hheight',entryOf_of_heightOf hheight,hlater.time i c hc hc' txid hin hmem]

end WalletNode

/-! ## One read -/

theorem lookup_foldl_insert {txs : List SinceEntry} {tip : ℤ} {f : Hash → WalletEntry}
    (h : ∀ e∈txs, e.entry tip = f e.txid) (m : WalletEntries) (txid : Hash) :
    (txs.foldl (fun m e => m.insert e.txid (e.entry tip)) m).lookup txid =
      if ∃ e∈txs, e.txid = txid then some (f txid) else m.lookup txid := by
  induction txs generalizing m with
  | nil => simp
  | cons e txs ih =>
    rw [foldl_cons,ih fun e he => h e (mem_cons_of_mem _ he)]
    by_cases hrest : ∃ e∈txs, e.txid = txid
    · obtain ⟨e',he',heq⟩ := hrest
      rw [if_pos ⟨e',he',heq⟩,if_pos ⟨e',mem_cons_of_mem _ he',heq⟩]
    · rw [if_neg hrest]
      by_cases heq : e.txid = txid
      · rw [if_pos ⟨e,mem_cons_self ..,heq⟩,← heq,AList.lookup_insert,h e (mem_cons_self ..)]
      · have hnone : ¬ ∃ e'∈e::txs, e'.txid = txid := by
          rintro ⟨e',he',heq'⟩
          rcases mem_cons.mp he' with rfl | he'
          · exact heq heq'
          · exact hrest ⟨e',he',heq'⟩
        rw [if_neg hnone,AList.lookup_insert_ne fun h => heq h.symm]

/-- The history was read at the moment `s`: its entries are those of transactions of the wallet, as
they were, and its block was on the main chain. -/
structure WalletHistory.ReadAt (hist : WalletHistory) (s : WalletNode) : Prop where
  last : ∀ last, hist.last = some last → ∃ b∈s.chain, b.hash = last
  entries : ∀ txid e, hist.entries.lookup txid = some e → txid∈s.wallet ∧ e = s.entryOf txid

section Read

variable {s : WalletNode} {r : WalletRpc} {hist hist' : WalletHistory} {tip : ℤ} {full : Bool}

theorem WalletRpc.of_since {start : Hash} (h : r.since full hist=some start) :
    hist.last = some start ∧ ∃ a, r.getblockheader start = some a ∧ 1 ≤ a.confirmations := by
  rw [since] at h
  split at h
  · cases h
  · obtain ⟨hlast,hany⟩ := filter_eq_some_iff.mp h
    cases ha : r.getblockheader start with
    | none => simp [ha] at hany
    | some a => exact ⟨hlast,a,rfl,by simpa [ha] using hany⟩

/-- One read, after reads at earlier moments: its entries are those of the wallet as it is now, and
if it asked for everything they are all of them. -/
theorem WalletRpc.readHistory_readAt (hs : s.Answers r)
    (hold : ∀ start, r.since full hist = some start → ∃ s₀, WalletNode.Later s₀ s ∧ hist.ReadAt s₀)
    (h : r.readHistory full hist = .ok (tip,hist')) :
    tip = s.tip ∧ hist'.ReadAt s ∧ (r.since full hist = none → ∀ txid∈s.wallet, txid∈hist'.entries) := by
  simp only [readHistory,checks_ok] at h
  obtain ⟨⟨txs,last⟩,hsince,header,hheader,hres⟩ := h
  cases hres
  obtain ⟨⟨b,hb,rfl⟩,hlisted,hall⟩ := hs.since _ _ _ hsince
  have htip : header.height = s.tip := hs.tip b hb header hheader
  have hentry : ∀ e∈txs, e.entry header.height = s.entryOf e.txid := fun e he => by
    rw [htip,WalletNode.entryOf,← (hlisted e he).2]
  refine ⟨htip,⟨fun last hlast => ?_, fun txid e he => ?_⟩,fun hnone txid htxid => ?_⟩
  · exact ⟨b,mem_of_getLast? hb,Option.some.inj hlast⟩
  · rw [lookup_foldl_insert hentry] at he
    split at he
    · next hin =>
      obtain ⟨e',he',rfl⟩ := hin
      exact ⟨(hlisted e' he').1,(Option.some.inj he).symm⟩
    · next hin =>
      -- an entry kept from an earlier read is of a transaction buried where that read ended
      split at he
      · simp at he
      · next hsome =>
        obtain ⟨start,hstart⟩ := ne_none_iff_exists'.mp (by simpa using hsome)
        obtain ⟨hlast,a,ha,hle⟩ := of_since hstart
        obtain ⟨s₀,hlater,hread⟩ := hold start hstart
        obtain ⟨hmem,rfl⟩ := hread.entries txid e he
        have hburied : s.Buried start txid := by
          by_contra hnot
          exact hin (hall txid (hlater.wallet txid hmem) fun hash heq => by
            rw [hstart,Option.some.injEq] at heq
            exact heq ▸ hnot)
        exact ⟨hlater.wallet txid hmem,(hlater.entryOf_eq (hread.last start hlast) hburied hmem).symm⟩
  · obtain ⟨e,he,rfl⟩ := hall txid htxid fun hash heq => by
      rw [hnone] at heq
      cases heq
    refine AList.lookup_isSome.mp ?_
    rw [lookup_foldl_insert hentry,if_pos ⟨e,he,rfl⟩]
    rfl

theorem WalletHistory.ReadAt.complete (h : hist.ReadAt s) (hcount : s.wallet.length=hist.entries.keys.length) :
    ∀ txid∈s.wallet, txid∈hist.entries := by
  have hsub : hist.entries.keys ⊆ s.wallet := fun txid htxid => by
    obtain ⟨e,he⟩ := isSome_iff_exists.mp (AList.lookup_isSome.mpr htxid)
    exact (h.entries txid e he).1
  have hperm := (subperm_of_subset hist.entries.keys_nodup hsub).perm_of_length_le hcount.le
  exact fun txid htxid => hperm.mem_iff.mpr htxid

theorem WalletHistory.ReadAt.lookup (h : hist.ReadAt s) (hall : ∀ txid∈s.wallet, txid∈hist.entries)
    (txid : Hash) : hist.entries.lookup txid = if txid ∈ s.wallet then some (s.entryOf txid) else none := by
  cases hlookup : hist.entries.lookup txid with
  | none =>
    rw [if_neg fun hmem => AList.lookup_eq_none.mp hlookup (hall txid hmem)]
  | some e =>
    obtain ⟨hmem,rfl⟩ := h.entries txid e hlookup
    rw [if_pos hmem]

theorem WalletRpc.readHistory_full (hs : s.Answers r) (h : r.readHistory true hist = .ok (tip,hist')) :
    tip = s.tip ∧ hist'.ReadAt s ∧
      ∀ txid, hist'.entries.lookup txid = if txid ∈ s.wallet then some (s.entryOf txid) else none := by
  have hnone : r.since true hist = none := rfl
  obtain ⟨htip,hread,hall⟩ := readHistory_readAt hs (fun start hstart => by cases hstart) h
  exact ⟨htip,hread,hread.lookup (hall hnone)⟩

/-- One call: it leaves a history read now, or what there was, and what it returns is all there is. -/
theorem WalletRpc.walletEntries_spec (hs : s.Answers r)
    (hold : ∀ last, hist.last = some last → ∃ s₀, WalletNode.Later s₀ s ∧ hist.ReadAt s₀) :
    ((r.walletEntries hist).2 = hist ∨ (r.walletEntries hist).2.ReadAt s) ∧
      ∀ tip entries, (r.walletEntries hist).1 = .ok (tip,entries) → tip = s.tip ∧
        ∀ txid, entries.lookup txid = if txid ∈ s.wallet then some (s.entryOf txid) else none := by
  have hold' (start : Hash) (hstart : r.since false hist=some start) :
      ∃ s₀, WalletNode.Later s₀ s ∧ hist.ReadAt s₀ := hold start (of_since hstart).1
  rw [walletEntries]
  cases hread : r.readHistory false hist with
  | error e => exact ⟨.inl rfl,fun tip entries h => by cases h⟩
  | ok p =>
    obtain ⟨htip,hat,-⟩ := readHistory_readAt hs hold' hread
    dsimp only
    cases hinfo : r.getwalletinfo with
    | none => exact ⟨.inr hat,fun tip entries h => by cases h⟩
    | some n =>
      dsimp only
      split
      · next hcount =>
        refine ⟨.inr hat,fun tip entries h => ?_⟩
        cases h
        exact ⟨htip,hat.lookup (hat.complete ((hs.info n hinfo).symm.trans hcount))⟩
      · cases hfull : r.readHistory true p.2 with
        | error e => exact ⟨.inr hat,fun tip entries h => by cases h⟩
        | ok q =>
          obtain ⟨htip,hat,hlookup⟩ := readHistory_full hs hfull
          refine ⟨.inr hat,fun tip entries h => ?_⟩
          cases h
          exact ⟨htip,hlookup⟩

end Read

/-! ## Read after read -/

/-- The history after some calls, whether they returned or failed. -/
def readRun (calls : List (WalletNode × WalletRpc)) : WalletHistory :=
  calls.foldl (fun hist c => (c.2.walletEntries hist).2) .new

variable {calls : List (WalletNode × WalletRpc)}

theorem exists_earlier {s : WalletNode} {hist : WalletHistory}
    (hread : hist = .new ∨ ∃ c∈calls, hist.ReadAt c.1) (hlater : ∀ s₀∈calls.map Prod.fst, s₀.Later s) :
    ∀ last, hist.last = some last → ∃ s₀, WalletNode.Later s₀ s ∧ hist.ReadAt s₀ := by
  intro last hlast
  rcases hread with rfl | ⟨c,hc,hread⟩
  · cases hlast
  · exact ⟨c.1,hlater c.1 (mem_map_of_mem hc),hread⟩

theorem readRun_readAt (hanswers : ∀ c∈calls, c.1.Answers c.2)
    (hlater : (calls.map Prod.fst).Pairwise WalletNode.Later) :
    readRun calls = .new ∨ ∃ c∈calls, (readRun calls).ReadAt c.1 := by
  induction calls using List.reverseRecOn with
  | nil => exact .inl rfl
  | append_singleton calls c ih =>
    obtain ⟨hcalls,-,hlast⟩ := pairwise_append.mp (map_append ▸ hlater)
    have hrun : readRun (calls++[c]) = (c.2.walletEntries (readRun calls)).2 := by
      rw [readRun,foldl_append]
      rfl
    have hbefore := ih (fun c hc => hanswers c (mem_append_left _ hc)) hcalls
    have hold := exists_earlier hbefore fun s₀ hs₀ => hlast s₀ hs₀ c.1 (by simp)
    rw [hrun]
    rcases (WalletRpc.walletEntries_spec (hanswers c (by simp)) hold).1 with hsame | hread
    · rw [hsame]
      exact hbefore.imp_right fun ⟨c₀,hc₀,hread⟩ => ⟨c₀,mem_append_left _ hc₀,hread⟩
    · exact .inr ⟨c,by simp, hread⟩

/-- Whatever happened between the calls, `walletEntries` returns the entries and the tip that reading
everything at that moment returns: every transaction of the wallet, as it is now. -/
theorem wallet_entries_are_full {calls : List (WalletNode × WalletRpc)} {s : WalletNode} {r : WalletRpc}
    (hanswers : ∀ c∈calls, c.1.Answers c.2) (hs : s.Answers r)
    (hlater : (calls.map Prod.fst++[s]).Pairwise WalletNode.Later) {tip : ℤ} {entries : WalletEntries}
    (h : (r.walletEntries (readRun calls)).1 = .ok (tip,entries)) :
    (tip = s.tip ∧ ∀ txid, entries.lookup txid = if txid ∈ s.wallet then some (s.entryOf txid) else none) ∧
      ∀ r' tip' hist', s.Answers r' → r'.readHistory true .new = .ok (tip',hist') →
        tip' = tip ∧ ∀ txid, hist'.entries.lookup txid = entries.lookup txid := by
  obtain ⟨hcalls,-,hlast⟩ := pairwise_append.mp hlater
  have hold := exists_earlier (readRun_readAt hanswers hcalls) fun s₀ hs₀ => hlast s₀ hs₀ s (by simp)
  obtain ⟨htip,hlookup⟩ := (WalletRpc.walletEntries_spec hs hold).2 tip entries h
  refine ⟨⟨htip,hlookup⟩,fun r' tip' hist' hr' hfull => ?_⟩
  obtain ⟨htip',-,hlookup'⟩ := WalletRpc.readHistory_full hr' hfull
  exact ⟨htip'.trans htip.symm,fun txid => by rw [hlookup' txid,hlookup txid]⟩

/-! ## A node to evaluate the reads with -/

namespace WalletNode

variable (s : WalletNode)

def indexOf (hash : Hash) : Option ℕ := s.chain.findIdx? fun b => b.hash = hash

/-- Core's answers, every call succeeding. -/
def rpc : WalletRpc where
  getblockheader hash := (s.indexOf hash).map fun h : ℕ => ⟨s.chain.length-h,h⟩
  listsinceblock start := s.chain.getLast?.map fun b =>
    ((s.wallet.filter fun txid => !((start.bind s.indexOf).any fun h =>
      (s.heightOf txid).any fun i => i ≤ h)).map s.listing,b.hash)
  getwalletinfo := some s.wallet.length

variable {s}

theorem exists_of_indexOf {hash : Hash} (hi : s.indexOf hash=some h) : ∃ b, s.chain[h]? = some b ∧ b.hash = hash := by
  obtain ⟨hlt,hmem,-⟩ := List.findIdx?_eq_some_iff_getElem.mp hi
  exact ⟨s.chain[h],List.getElem?_eq_getElem hlt,of_decide_eq_true hmem⟩

theorem index_unique {l : List MainBlock} (hnodup : (l.map (·.hash)).Nodup) {h' : ℕ} {b b' : MainBlock}
    (hb : l[h]? = some b) (hb' : l[h']? = some b') (heq : b.hash=b'.hash) : h = h' := by
  have hlt : h < (l.map (·.hash)).length := by
    rw [length_map]
    exact (List.getElem?_eq_some_iff.mp hb).1
  refine (List.getElem?_inj hlt hnodup).mp ?_
  rw [List.getElem?_map,List.getElem?_map,hb,hb',map_some,map_some,heq]

theorem answers_rpc (hnodup : (s.chain.map (·.hash)).Nodup) : s.Answers s.rpc where
  header hash a ha _ := by
    obtain ⟨h,hi,-⟩ := map_eq_some_iff.mp ha
    obtain ⟨b,hb,hhash⟩ := exists_of_indexOf hi
    exact ⟨b,mem_of_getElem? hb,hhash⟩
  since start txs last h := by
    obtain ⟨b,hb,heq⟩ := map_eq_some_iff.mp h
    cases heq
    refine ⟨⟨b,hb,rfl⟩,fun e he => ?_, fun txid htxid hnot => ?_⟩
    · obtain ⟨txid,htxid,rfl⟩ := mem_map.mp he
      exact ⟨(mem_filter.mp htxid).1,rfl⟩
    · refine ⟨s.listing txid,mem_map_of_mem (mem_filter.mpr ⟨htxid,?_⟩),rfl⟩
      by_contra hany
      simp only [Bool.not_eq_true',Bool.not_eq_false,Option.any_eq_true,Option.bind_eq_some_iff,
        decide_eq_true_eq] at hany
      obtain ⟨k,⟨hash,rfl,hi⟩,i,hheight,hle⟩ := hany
      obtain ⟨b',hb',hhash⟩ := exists_of_indexOf hi
      exact hnot hash rfl ⟨k,b',hb',hhash,i,hle,hheight⟩
  tip b hb a ha := by
    obtain ⟨h,hi,rfl⟩ := map_eq_some_iff.mp ha
    obtain ⟨b',hb',hhash⟩ := exists_of_indexOf hi
    rw [List.getLast?_eq_getElem?] at hb
    have hindex := index_unique hnodup hb' hb hhash
    have hlt := (List.getElem?_eq_some_iff.mp hb).1
    simp only [tip,hindex]
    omega
  info n hn := (Option.some.inj hn).symm

theorem later_of_append {s' : WalletNode} {more : List MainBlock} (hchain : s'.chain=s.chain++more)
    (hnodup : (s'.chain.map (·.hash)).Nodup) (hwallet : s.wallet ⊆ s'.wallet) (htime : s'.time=s.time) :
    s.Later s' where
  wallet _ h := hwallet h
  linked h b h' b' hb hb' heq := by
    have hlt := (List.getElem?_eq_some_iff.mp hb).1
    have hnew : s'.chain[h]? = some b := by rw [hchain,List.getElem?_append_left hlt,hb]
    refine ⟨index_unique hnodup hnew hb' heq,?_⟩
    rw [hchain,take_append_of_le_length hlt]
  time _ _ _ _ txid _ _ := by rw [htime]

end WalletNode

/-- A payment in the block 3. -/
def readNode : WalletNode := ⟨[⟨1,[]⟩,⟨2,[20]⟩,⟨3,[30]⟩],[30],by decide, fun _ => 0, fun _ => 0⟩

/-- A block later an older payment was imported, and two are in no block, one of them conflicted. -/
def importedNode : WalletNode :=
  ⟨readNode.chain++[⟨4,[]⟩],[30,20,40,50],by decide, fun txid => if txid = 50 then 1 else 0, fun _ => 0⟩

/-- The second read finds the imported payment by the count. -/
theorem imported_payment_read :
    ∃ tip entries, (importedNode.rpc.walletEntries (readRun [(readNode,readNode.rpc)])).1 = .ok (tip,entries) ∧
      tip = 3 ∧ entries.lookup 20 = some ⟨1,false,0,0⟩ ∧ entries.lookup 50 = some ⟨0,true,1,0⟩ := by
  have hanswers : ∀ c∈[(readNode,readNode.rpc)], c.1.Answers c.2 := fun c hc => by
    rw [mem_singleton.mp hc]
    exact WalletNode.answers_rpc (by decide)
  have hs : importedNode.Answers importedNode.rpc := WalletNode.answers_rpc (by decide)
  have hlater : ([(readNode,readNode.rpc)].map Prod.fst++[importedNode]).Pairwise WalletNode.Later := by
    refine pairwise_pair.mpr (WalletNode.later_of_append rfl (by decide) ?_ rfl)
    decide
  obtain ⟨⟨tip,entries⟩,h⟩ := exists_of_isOk
    (show (importedNode.rpc.walletEntries (readRun [(readNode,readNode.rpc)])).1.isOk = true by decide +kernel)
  obtain ⟨⟨htip,hlookup⟩,-⟩ := wallet_entries_are_full hanswers hs hlater h
  refine ⟨tip,entries,h,by rw [htip]; rfl, ?_, ?_⟩
  · rw [hlookup]
    decide +kernel
  · rw [hlookup]
    decide +kernel

end DogePeg
