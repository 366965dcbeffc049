import DogePeg.Bridge.Load
import DogePeg.Lib.Doubles
import Mathlib.Data.List.Flatten
import Mathlib.Data.List.Induction

/-!
# The books behind the audit

Closed forms of what `load` and `audit` add up. `settleBy` goes through the signers'
transactions in the order they are listed; what it ends with does not depend on that
order: an action counts as pending until one of its transactions is in a block.
-/

namespace DogePeg

open Amounts Option Bridge PegState

variable {txs : List ChainTx} {coins : List Utxo} {t : ChainTx} {op : OutPoint}

section

variable [Hashing]

/-! ## The payments -/

/-- What a map of settled actions says about the transactions `l` it was read from. -/
structure Settles {κ : Type} (parse : MsgTx → Option κ) (l : List ChainTx) (m : κ → Option Hash) :
    Prop where
  eq_none : ∀ k, m k = none → ∀ t∈l, parse t.tx ≠ some k
  of_some : ∀ k h, m k = some h → ∃ t∈l, parse t.tx = some k ∧ t.tx.txHash = h ∧
    (0 < t.confirmations ∨ ∀ u∈l, parse u.tx = some k → u.confirmations = 0)

def unconfirmedIn (l : List ChainTx) : List ChainTx := l.filter fun t => t.confirmations = 0

theorem Settles.add {κ : Type} [DecidableEq κ] {parse : MsgTx → Option κ} {l : List ChainTx}
    {m : κ → Option Hash} (h : Settles parse l m) (t : ChainTx) (hpos : 0≤t.confirmations) :
    Settles parse (l++[t]) (settleBy (unconfirmedIn (l++[t])) t (parse t.tx) m) := by
  -- a key that `t` does not settle is as it was
  have hother {k : κ} (hk : parse t.tx≠some k) (hash : Hash) (hm : m k=some hash) :
      ∃ u∈l++[t], parse u.tx = some k ∧ u.tx.txHash = hash ∧
        (0 < u.confirmations ∨ ∀ v∈l++[t], parse v.tx = some k → v.confirmations = 0) := by
    obtain ⟨u,hu,hp,hh,hc⟩ := h.of_some k hash hm
    refine ⟨u,List.mem_append_left _ hu,hp,hh,hc.imp_right fun hall v hv hpv => ?_⟩
    rcases List.mem_append.mp hv with hv | hv
    · exact hall v hv hpv
    · rw [List.mem_singleton.mp hv] at hpv
      exact absurd hpv hk
  have hnone {k : κ} (hk : parse t.tx≠some k) (hm : m k=none) : ∀ u∈l++[t], parse u.tx ≠ some k := by
    intro u hu
    rcases List.mem_append.mp hu with hu | hu
    · exact h.eq_none k hm u hu
    · rw [List.mem_singleton.mp hu]
      exact hk
  unfold settleBy
  cases hkey : parse t.tx with
  | none =>
    exact ⟨fun k hm => hnone (by simp [hkey]) hm, fun k hash hm => hother (by simp [hkey]) hash hm⟩
  | some key =>
    dsimp only
    split
    case isTrue hcounts =>
      constructor
      · intro k hm
        by_cases hk : k = key
        · simp [hk] at hm
        · rw [Function.update_of_ne hk] at hm
          exact hnone (by rw [hkey]; simpa using Ne.symm hk) hm
      · intro k hash hm
        by_cases hk : k = key
        · subst hk
          rw [Function.update_self,Option.some.injEq] at hm
          refine ⟨t,by simp, hkey, hm, ?_⟩
          cases hprev : m k with
          | some prev =>
            rw [hprev,all_some,Bool.and_eq_true,decide_eq_true_eq] at hcounts
            exact .inl hcounts.2
          | none =>
            -- the first transaction for this action
            rcases hpos.lt_or_eq with hlt | heq
            · exact .inl hlt
            · refine .inr fun u hu hp => ?_
              rcases List.mem_append.mp hu with hu | hu
              · exact absurd hp (h.eq_none k hprev u hu)
              · rw [List.mem_singleton.mp hu,← heq]
        · rw [Function.update_of_ne hk] at hm
          exact hother (by rw [hkey]; simpa using Ne.symm hk) hash hm
    case isFalse hcounts =>
      constructor
      · intro k hm
        by_cases hk : k = key
        · subst hk
          simp [hm] at hcounts
        · exact hnone (by rw [hkey]; simpa using Ne.symm hk) hm
      · intro k hash hm
        by_cases hk : k = key
        · subst hk
          obtain ⟨u,hu,hp,hh,hc⟩ := h.of_some k hash hm
          refine ⟨u,List.mem_append_left _ hu,hp,hh,?_⟩
          rcases hc with hc | hall
          · exact .inl hc
          · -- the one recorded is unconfirmed, so `t` is too
            have hlisted : (unconfirmedIn (l++[t])).any (fun v => v.tx.txHash = hash) = true := by
              rw [List.any_eq_true]
              refine ⟨u,?_,by simp [hh]⟩
              simp [unconfirmedIn,hu,hall u hu hp]
            rw [hm,all_some,hlisted,Bool.true_and,decide_eq_true_eq,not_lt] at hcounts
            refine .inr fun v hv hpv => ?_
            rcases List.mem_append.mp hv with hv | hv
            · exact hall v hv hpv
            · rw [List.mem_singleton.mp hv]
              omega
        · exact hother (by rw [hkey]; simpa using Ne.symm hk) hash hm

theorem foldl_addPayment (l : List ChainTx) (hpos : ∀ t∈l, 0 ≤ t.confirmations) :
    (l.foldl addPayment ⟨[],fun _ => none, fun _ => none⟩).unconfirmed = unconfirmedIn l ∧
      Settles parsePayment l (l.foldl addPayment ⟨[],fun _ => none, fun _ => none⟩).paid ∧
      Settles parseRefund l (l.foldl addPayment ⟨[],fun _ => none, fun _ => none⟩).refunded := by
  induction l using List.reverseRecOn with
  | nil => exact ⟨rfl,⟨by simp, by simp⟩,⟨by simp, by simp⟩⟩
  | append_singleton l t ih =>
    obtain ⟨hun,hpaid,href⟩ := ih fun u hu => hpos u (List.mem_append_left _ hu)
    have hun' : (if t.confirmations = 0 then unconfirmedIn l++[t] else unconfirmedIn l) =
        unconfirmedIn (l++[t]) := by
      by_cases ht : t.confirmations = 0 <;> simp [unconfirmedIn,ht]
    simp only [List.foldl_append,List.foldl_cons,List.foldl_nil,addPayment,hun,hun']
    exact ⟨trivial,hpaid.add t (hpos t (by simp)),href.add t (hpos t (by simp))⟩

theorem Settles.all_unconfirmed {κ : Type} {parse : MsgTx → Option κ} {l : List ChainTx}
    {m : κ → Option Hash} (h : Settles parse l m) (hnodup : (l.map fun t => t.tx.txHash).Nodup) (k : κ) :
    (m k).all (fun hash => (unconfirmedIn l).any fun t => t.tx.txHash = hash) = true ↔
      ∀ t∈l, parse t.tx = some k → t.confirmations = 0 := by
  cases hm : m k with
  | none =>
    simp only [all_none,true_iff]
    exact fun t ht hp => absurd hp (h.eq_none k hm t ht)
  | some hash =>
    obtain ⟨t,ht,hp,rfl,hc⟩ := h.of_some k hash hm
    rw [all_some,List.any_eq_true]
    constructor
    · rintro ⟨u,hu,heq⟩
      rw [unconfirmedIn,List.mem_filter,decide_eq_true_eq] at hu
      obtain rfl := List.inj_on_of_nodup_map hnodup hu.1 ht (of_decide_eq_true heq)
      rcases hc with hc | hall
      · omega
      · exact hall
    · intro hall
      exact ⟨t,by simp [unconfirmedIn,ht,hall t ht hp], by simp⟩

/-! ## Sums over the listings -/

theorem map_snd_outputs (tx : MsgTx) : tx.outputs.map Prod.snd = tx.txOut := by
  rw [MsgTx.outputs,List.map_map]
  exact List.zipIdx_map_fst 0 tx.txOut

theorem sum_coinsWhere {M : Type*} [AddCommMonoid M] (isCoin : Script → Bool) (t : ChainTx) (f : Utxo → M) :
    ((coinsWhere isCoin t).map f).sum = (t.tx.outputs.map fun p =>
      if isCoin p.2.pkScript then f ⟨p.1,p.2.value,p.2.pkScript,t.confirmations⟩ else 0).sum := by
  rw [coinsWhere,List.map_map,sum_filter]
  rfl

theorem paidTo_eq_sum (script : Script) (t : ChainTx) :
    paidTo script t.tx = ((coinsTo script t).map (·.value)).sum := by
  rw [paidTo,total_eq_sum,coinsTo,sum_coinsWhere,sum_filter,← map_snd_outputs,List.map_map]
  rfl

theorem outPoint_mem_coinsWhere {isCoin : Script → Bool} {p : OutPoint × TxOut}
    (hp : p∈t.tx.outputs) (hcoin : isCoin p.2.pkScript) : p.1∈(coinsWhere isCoin t).map (·.outPoint) :=
  List.mem_map.mpr ⟨⟨p.1,p.2.value,p.2.pkScript,t.confirmations⟩,mem_coinsWhere.mpr ⟨hp,hcoin,rfl⟩,rfl⟩

/-! ## What the wallet lists -/

section

open Doubles

/-- A number of koinu that Dogecoin Core gives in DOGE: the `float64` nearest to it times
`koinuPerDoge`, which is a `float64` again, as `math.Round` leaves it. -/
def readKoinu (n : ℕ) : ℕ := (2*toDouble (toDouble n 100000000*100000000) scale+scale) / (2*scale)

omit [Hashing] in
/-- Neither of the two roundings moves the number by half a koinu. -/
theorem readKoinu_of_lt {n : ℕ} (h : n<2^51) : readKoinu n = n := by
  rcases Nat.eq_zero_or_pos n with rfl | hpos
  · decide +kernel
  have hbig : 2^100 ≤ scale := Nat.pow_le_pow_right (by decide) (by decide)
  have hle : 1*scale ≤ n*scale := Nat.mul_le_mul_right _ hpos
  have hlt : n*scale ≤ (2^51-1)*scale := Nat.mul_le_mul_right _ (by omega)
  have hfirst := toDouble_bounds (p := n) (q := 100000000) (by decide) (by omega)
  have hsecond := toDouble_bounds (p := toDouble n 100000000*100000000) scale_pos (by
    rw [Nat.mul_comm]
    exact Nat.mul_le_mul_right _ (by omega))
  rw [readKoinu]
  generalize toDouble n 100000000*100000000 = read at hfirst hsecond ⊢
  rw [← Nat.mul_assoc,← Nat.mul_assoc,← Nat.add_mul,← Nat.add_mul] at hsecond
  have hlo := Nat.le_of_mul_le_mul_right hsecond.1 scale_pos
  have hhi := Nat.le_of_mul_le_mul_right hsecond.2 scale_pos
  generalize toDouble read scale = result at hlo hhi ⊢
  have hsplit : n*scale*2 = n*(2*scale) := by ring
  have hnext : (n+1)*(2*scale) = n*scale*2+2*scale := by ring
  generalize n*scale = exact at *
  exact Nat.div_eq_of_lt_le (by omega) (by omega)

example : readKoinu 3355461609040441 = 3355461609040442 := by decide +kernel

end

def readAmount (v : Int64) : Int64 := .ofInt (v.toInt.sign*readKoinu v.toInt.natAbs)

def Utxo.read (u : Utxo) : Utxo := { u with value := readAmount u.value }

omit [Hashing] in
theorem readAmount_of_lt {v : Int64} (hv : 0≤v.toInt) (hlt : v.toInt<2^51) : readAmount v = v := by
  have habs : ((v.toInt.natAbs : ℕ) : ℤ) = v.toInt := Int.natAbs_of_nonneg hv
  rw [readAmount,readKoinu_of_lt (by omega),Int.sign_mul_natAbs,Int64.ofInt_toInt]

/-- Both chains as an auditor's nodes list them. -/
structure History where
  vm : Listing
  doge : Listing
  dogeConflicted : List ChainTx

namespace Bridge

variable (b : Bridge)

theorem watches_eq (s : Script) : b.watches s = ((b.depositDest s).isSome || s = b.script) := by
  unfold watches redeemFor
  cases b.depositDest s with
  | some d => rfl
  | none => by_cases hs : s = b.script <;> simp [hs]

@[simp] theorem watches_script : b.watches b.script = true := by simp [watches_eq]

/-- Nodes that answer from what they list: `gettxout` finds an output until a block spends
it, and the wallet lists one until any listed transaction does, with the value `unspent`
reads. -/
def nodes (h : History) : Nodes where
  vm := h.vm
  gettxout op := !(inBlocks h.vm.txs).any fun t => op ∈ t.tx.spends
  doge := h.doge
  dogeConflicted := h.dogeConflicted
  dogeUnspent := ((h.doge.txs.flatMap (coinsWhere b.watches)).filter fun u =>
    !h.doge.txs.any fun t => u.outPoint ∈ t.tx.spends).map Utxo.read

def state (h : History) : PegState := b.load (b.nodes h)

def surplus (h : History) : Int64 := (b.state h).audit.surplus

/-- The wallet reads every watched output of `t` for what it is worth. -/
def ReadsExactly (t : ChainTx) : Prop := ∀ u∈coinsWhere b.watches t, readAmount u.value = u.value

/-- The wallet reads every watched output that `tx` spends for what it is worth. -/
def ReadsSpent (h : History) (tx : MsgTx) : Prop :=
  ∀ t∈h.doge.txs, ∀ u∈coinsWhere b.watches t, u.outPoint∈tx.spends → readAmount u.value = u.value

theorem readsExactly_of_lt (h : ∀ u∈coinsWhere b.watches t, 0 ≤ u.value.toInt ∧ u.value.toInt < 2^51) :
    b.ReadsExactly t := fun u hu => readAmount_of_lt (h u hu).1 (h u hu).2

end Bridge

def Unspent (txs : List ChainTx) (op : OutPoint) : Prop := ∀ t∈txs, op ∉ t.tx.spends

instance (txs : List ChainTx) (op : OutPoint) : Decidable (Unspent txs op) :=
  inferInstanceAs (Decidable (∀ t∈txs, op ∉ t.tx.spends))

omit [Hashing] in
theorem not_any_spends : (!txs.any fun t => op ∈ t.tx.spends) = decide (Unspent txs op) := by
  rw [Bool.eq_iff_iff,decide_eq_true_iff]
  simp [Unspent]

omit [Hashing] in
theorem Unspent.inBlocks (h : Unspent txs op) : Unspent (inBlocks txs) op := fun t ht => h t (mem_inBlocks.mp ht).1

theorem Listing.eq_of_hash (l : Listing) {u : ChainTx} (ht : t∈l.txs) (hu : u∈l.txs)
    (h : t.tx.txHash=u.tx.txHash) : t = u := List.inj_on_of_nodup_map l.nodup ht hu h

theorem Listing.nodup_coins (l : Listing) (isCoin : Script → Bool) :
    ((l.txs.flatMap (coinsWhere isCoin)).map (·.outPoint)).Nodup := by
  have hsub : ∀ t, ((coinsWhere isCoin t).map (·.outPoint)).Sublist (t.tx.outputs.map Prod.fst) := by
    intro t
    rw [coinsWhere,List.map_map]
    exact List.filter_sublist.map _
  rw [List.map_flatMap,List.nodup_flatMap]
  refine ⟨fun t _ => (hsub t).nodup t.tx.nodup_outputs_keys, ?_⟩
  -- outputs of two transactions have different hashes
  have hpair : l.txs.Pairwise fun t u => t.tx.txHash ≠ u.tx.txHash := List.pairwise_map.mp l.nodup
  refine hpair.imp fun {t u} hne op ht hu => hne ?_
  obtain ⟨p,hp,rfl⟩ := List.mem_map.mp ((hsub t).subset ht)
  obtain ⟨q,hq,heq⟩ := List.mem_map.mp ((hsub u).subset hu)
  rw [← t.tx.hash_of_mem_outputs hp,← u.tx.hash_of_mem_outputs hq,heq]

theorem Listing.nodup_confirmedCoins (l : Listing) (b : Bridge) :
    ((b.confirmedCoins l.txs).map (·.outPoint)).Nodup := by
  refine List.Sublist.nodup ?_ (l.nodup_coins b.watches)
  exact (List.Sublist.flatMap List.filter_sublist _).map _

/-! ## Locked coins -/

omit [Hashing] in
theorem addPending_mem {acc : List Utxo} {c : Utxo} (hnodup : (coins.map (·.outPoint)).Nodup) (hacc : acc ⊆ coins) :
    c ∈ addPending coins acc op ↔ c∈acc ∨ c∈coins ∧ c.outPoint = op := by
  unfold addPending
  cases hfind : coins.find? fun u => u.outPoint = op with
  | none =>
    rw [List.find?_eq_none] at hfind
    refine (or_iff_left ?_).symm
    rintro ⟨hc,heq⟩
    exact hfind c hc (by simpa using heq)
  | some d =>
    have hd := List.mem_of_find?_eq_some hfind
    have hop : d.outPoint = op := by simpa using List.find?_some hfind
    have huniq : c∈coins ∧ c.outPoint = op ↔ c = d := by
      constructor
      · rintro ⟨hc,heq⟩
        exact List.inj_on_of_nodup_map hnodup hc hd (heq.trans hop.symm)
      · rintro rfl
        exact ⟨hd,hop⟩
    dsimp only
    rw [huniq]
    split
    · rename_i hany
      obtain ⟨u,hu,heq⟩ := List.any_eq_true.mp hany
      have hud : u = d := List.inj_on_of_nodup_map hnodup (hacc hu) hd ((of_decide_eq_true heq).trans hop.symm)
      constructor
      · exact .inl
      · rintro (hc | rfl)
        · exact hc
        · exact hud ▸ hu
    · simp

omit [Hashing] in
theorem addPending_nodup {acc : List Utxo} (op : OutPoint) (hacc : (acc.map (·.outPoint)).Nodup) :
    ((addPending coins acc op).map (·.outPoint)).Nodup := by
  unfold addPending
  split
  case h_1 c hfind =>
    have hop : c.outPoint = op := by simpa using List.find?_some hfind
    split
    · exact hacc
    · rename_i hany
      rw [List.map_append,List.nodup_append]
      refine ⟨hacc,by simp, ?_⟩
      rintro _ ha _ hb rfl
      obtain ⟨u,hu,heq⟩ := List.mem_map.mp ha
      rw [List.map_singleton,List.mem_singleton,hop] at hb
      exact hany (List.any_eq_true.mpr ⟨u,hu,by simp [heq,hb]⟩)
  case h_2 => exact hacc

omit [Hashing] in
theorem foldl_addPending (hnodup : (coins.map (·.outPoint)).Nodup)
    (ops : List OutPoint) (acc : List Utxo) (hsub : acc ⊆ coins) (hacc : (acc.map (·.outPoint)).Nodup) :
    ((ops.foldl (addPending coins) acc).map (·.outPoint)).Nodup ∧
      ∀ c, c∈ops.foldl (addPending coins) acc ↔ c∈acc ∨ c∈coins ∧ c.outPoint∈ops := by
  induction ops generalizing acc with
  | nil => exact ⟨hacc,by simp⟩
  | cons op ops ih =>
    have hmem (c : Utxo) : c∈addPending coins acc op ↔
        c ∈ acc ∨ c∈coins ∧ c.outPoint = op := addPending_mem hnodup hsub
    have hsub' : addPending coins acc op ⊆ coins := fun c hc =>
      ((hmem c).mp hc).elim (fun h => hsub h) (·.1)
    obtain ⟨hn,hm⟩ := ih _ hsub' (addPending_nodup op hacc)
    refine ⟨hn,fun c => ?_⟩
    rw [List.foldl_cons,hm,hmem,List.mem_cons]
    tauto

/-- A watched output counts as locked until a transaction in a block spends it; the wallet
lists it until one in the mempool does, and `pendingCoins` has it from then on. -/
def Locked (txs : List ChainTx) (op : OutPoint) : Prop :=
  Unspent txs op ∨ ∃ t∈txs, t.confirmations = 0 ∧ op∈t.tx.spends

instance (txs : List ChainTx) (op : OutPoint) : Decidable (Locked txs op) :=
  inferInstanceAs (Decidable (_ ∨ _))

/-- What the audit takes a locked output for: the wallet's reading while the wallet lists it,
its own value once it is pending. -/
def countedValue (txs : List ChainTx) (op : OutPoint) (v : Int64) : Int64 :=
  if Unspent txs op then readAmount v else v

omit [Hashing] in
theorem countedValue_of_read {v : Int64} (h : readAmount v=v) : countedValue txs op v = v := by
  rw [countedValue,h,ite_self]

def Utxo.counted (txs : List ChainTx) (u : Utxo) : Utxo := { u with value := countedValue txs u.outPoint u.value }

namespace Bridge

variable (b : Bridge)

theorem payments_spec (l : Listing) :
    (b.payments l.txs).unconfirmed = unconfirmedIn (l.txs.filter (b.dogeSigned l.txs)) ∧
      Settles parsePayment (l.txs.filter (b.dogeSigned l.txs)) (b.payments l.txs).paid ∧
      Settles parseRefund (l.txs.filter (b.dogeSigned l.txs)) (b.payments l.txs).refunded :=
  foldl_addPayment _ fun t ht => l.nonneg t (List.mem_of_mem_filter ht)

theorem mem_watchedOuts : op∈b.watchedOuts txs ↔ ∃ t∈txs, ∃ u∈coinsWhere b.watches t, u.outPoint = op := by
  simp [watchedOuts]

theorem pendingCoins_perm (l : Listing) : (b.pendingCoins l.txs (b.payments l.txs).unconfirmed).Perm
      ((b.confirmedCoins l.txs).filter fun u =>
        ∃ t∈l.txs, t.confirmations = 0 ∧ u.outPoint∈t.tx.spends) := by
  have hnodup := l.nodup_confirmedCoins b
  obtain ⟨hn,hm⟩ := foldl_addPending hnodup
    ((b.payments l.txs).unconfirmed.flatMap fun t => t.tx.spends) [] (by simp) (by simp)
  rw [← pendingCoins] at hn hm
  rw [List.perm_ext_iff_of_nodup (hn.of_map _) ((hnodup.of_map _).filter _)]
  intro c
  rw [hm,List.mem_filter,(b.payments_spec l).1]
  simp only [List.not_mem_nil,false_or,List.mem_flatMap,unconfirmedIn,List.mem_filter,decide_eq_true_eq]
  refine and_congr_right fun hc => ?_
  constructor
  · rintro ⟨t,⟨⟨ht,-⟩,hconf⟩,hspend⟩
    exact ⟨t,ht,hconf,hspend⟩
  · rintro ⟨t,ht,hconf,hspend⟩
    refine ⟨t,⟨⟨ht,?_⟩,hconf⟩,hspend⟩
    -- it spends a watched output, so it is one of the signers'
    obtain ⟨u,hu,hcu⟩ := List.mem_flatMap.mp hc
    rw [dogeSigned,spendsAny,List.any_eq_true]
    exact ⟨c.outPoint,hspend,decide_eq_true (b.mem_watchedOuts.mpr ⟨u,(mem_inBlocks.mp hu).1,c,hcu,rfl⟩)⟩

theorem confirmedCoins_eq_filter (txs : List ChainTx) : b.confirmedCoins txs =
      (txs.flatMap (coinsWhere b.watches)).filter fun u => 0 < u.confirmations := by
  rw [confirmedCoins,inBlocks]
  induction txs with
  | nil => rfl
  | cons t txs ih =>
    rw [List.flatMap_cons,List.filter_append,← ih]
    by_cases hpos : 0 < t.confirmations
    · have hall : ((coinsWhere b.watches t).filter fun u => 0 < u.confirmations) = coinsWhere b.watches t :=
        List.filter_eq_self.mpr fun u hu => decide_eq_true ((mem_coinsWhere.mp hu).2.2.symm ▸ hpos)
      rw [hall,List.filter_cons_of_pos (by simpa using hpos),List.flatMap_cons]
    · have hnone : ((coinsWhere b.watches t).filter fun u => 0 < u.confirmations) = [] :=
        List.filter_eq_nil_iff.mpr fun u hu hlt =>
          hpos ((mem_coinsWhere.mp hu).2.2 ▸ of_decide_eq_true hlt)
      rw [hnone,List.filter_cons_of_neg (by simpa using hpos),List.nil_append]

theorem filter_dogeUnspent (h : History) : ((b.nodes h).dogeUnspent.filter fun u => 0 < u.confirmations) =
      ((b.confirmedCoins h.doge.txs).filter fun u => Unspent h.doge.txs u.outPoint).map Utxo.read := by
  rw [nodes,List.filter_map,confirmedCoins_eq_filter,List.filter_comm]
  simp only [not_any_spends]
  rfl

/-- What the audit adds up, and what an anchor is looked for in. -/
theorem lockedCoins_perm (h : History) : (((b.nodes h).dogeUnspent.filter fun u => 0 < u.confirmations) ++
        b.pendingCoins h.doge.txs (b.payments h.doge.txs).unconfirmed).Perm
      (((b.confirmedCoins h.doge.txs).filter fun u => Locked h.doge.txs u.outPoint).map
        (Utxo.counted h.doge.txs)) := by
  let coins := b.confirmedCoins h.doge.txs
  have hlisted : (coins.filter fun u => Unspent h.doge.txs u.outPoint).map Utxo.read =
      ((coins.filter fun u => Locked h.doge.txs u.outPoint).filter fun u =>
        Unspent h.doge.txs u.outPoint).map (Utxo.counted h.doge.txs) := by
    have hlocked {u : Utxo} (hun : Unspent h.doge.txs u.outPoint) : Locked h.doge.txs u.outPoint := .inl hun
    simp only [List.filter_filter,← Bool.decide_and,and_iff_left_of_imp hlocked]
    refine List.map_congr_left fun u hu => ?_
    have hun : Unspent h.doge.txs u.outPoint := of_decide_eq_true (List.mem_filter.mp hu).2
    rw [Utxo.read,Utxo.counted,countedValue,if_pos hun]
  have hpending : (coins.filter fun u => ∃ t∈h.doge.txs, t.confirmations = 0 ∧ u.outPoint∈t.tx.spends) =
      ((coins.filter fun u => Locked h.doge.txs u.outPoint).filter fun u =>
        !decide (Unspent h.doge.txs u.outPoint)).map (Utxo.counted h.doge.txs) := by
    have hiff (u : Utxo) : (∃ t∈h.doge.txs, t.confirmations = 0 ∧ u.outPoint∈t.tx.spends) ↔
        ¬Unspent h.doge.txs u.outPoint ∧ Locked h.doge.txs u.outPoint := by
      have hspent : (∃ t∈h.doge.txs, t.confirmations = 0 ∧ u.outPoint∈t.tx.spends) →
          ¬Unspent h.doge.txs u.outPoint := by
        rintro ⟨t,ht,-,hs⟩ hun
        exact hun t ht hs
      unfold Locked
      tauto
    simp only [List.filter_filter,← decide_not,← Bool.decide_and,hiff]
    refine (List.map_id _).symm.trans (List.map_congr_left fun u hu => ?_)
    have hun := (of_decide_eq_true (List.mem_filter.mp hu).2).1
    rw [Utxo.counted,countedValue,if_neg hun,id]
  rw [filter_dogeUnspent,hlisted]
  refine ((b.pendingCoins_perm h.doge).append_left _).trans ?_
  rw [hpending,← List.map_append]
  exact (List.filter_append_perm _ _).map _

theorem locked_eq (h : History) : (b.state h).locked = ((inBlocks h.doge.txs).map fun t =>
      ((coinsWhere b.watches t).map fun u =>
        if Locked h.doge.txs u.outPoint then countedValue h.doge.txs u.outPoint u.value else 0).sum).sum := by
  have hlocked : (b.state h).locked =
      total (((b.nodes h).dogeUnspent.filter fun u => 0 < u.confirmations).map (·.value)) +
        total ((b.pendingCoins h.doge.txs (b.payments h.doge.txs).unconfirmed).map (·.value)) := rfl
  have hperm := ((b.lockedCoins_perm h).map (·.value)).sum_eq
  rw [List.map_append,List.sum_append,List.map_map] at hperm
  rw [hlocked,total_eq_sum,total_eq_sum,hperm,sum_filter,confirmedCoins,sum_flatMap]
  simp only [decide_eq_true_eq]
  rfl

theorem reserveUnspent_eq (h : History) : (b.state h).reserveUnspent = (h.vm.txs.map fun t =>
      if t.confirmations ≠ 0 ∨ b.vmSigned h.vm.txs t then
        ((coinsTo b.script t).map fun u =>
          if Unspent h.vm.txs u.outPoint then u.value else 0).sum
      else 0).sum := by
  have hstate : (b.state h).reserveUnspent =
      total (((b.vmUnspent h.vm.txs (b.nodes h).gettxout).filter (b.reserveHeld h.vm.txs)).map (·.value)) := rfl
  rw [hstate,total_eq_sum,sum_filter,vmUnspent,sum_filter,sum_flatMap]
  refine sum_congr fun t ht => ?_
  have hsigned {u : Utxo} (hu : u∈coinsTo b.script t) :
      (h.vm.txs.any fun t => b.vmSigned h.vm.txs t && t.tx.txHash = u.outPoint.hash) = b.vmSigned h.vm.txs t := by
    have hhash : u.outPoint.hash = t.tx.txHash := t.tx.hash_of_mem_outputs (mem_coinsWhere.mp hu).1
    rw [Bool.eq_iff_iff,List.any_eq_true]
    constructor
    · rintro ⟨v,hv,heq⟩
      rw [Bool.and_eq_true,decide_eq_true_eq] at heq
      exact h.vm.eq_of_hash hv ht (heq.2.trans hhash) ▸ heq.1
    · intro hs
      exact ⟨t,ht,by simp [hs,hhash]⟩
  have hone {u : Utxo} (hu : u∈coinsTo b.script t) :
      (if (b.nodes h).gettxout u.outPoint then if b.reserveHeld h.vm.txs u then u.value else 0
        else 0) =
      if t.confirmations ≠ 0 ∨ b.vmSigned h.vm.txs t then
        if Unspent h.vm.txs u.outPoint then u.value else 0 else 0 := by
    by_cases hun : Unspent h.vm.txs u.outPoint
    · simp [nodes,reserveHeld,not_any_spends,hun,hun.inBlocks,hsigned hu,(mem_coinsWhere.mp hu).2.2]
    · simp [reserveHeld,not_any_spends,hun]
  rw [sum_congr fun u hu => hone hu]
  split
  · rfl
  · simp

end Bridge

/-! ## What is owed -/

namespace PegState

variable (s : PegState)

/-- Whether a deposit is still owed to someone: it is neither credited nor refunded. -/
def unsettled (d : Deposit) : Bool :=
  if isRefunded s.refunded d then s.isUnconfirmed ((s.refunded d.outPoint).getD 0)
  else if isCredit s.cancelled d then (s.released d.outPoint).isNone
  else (s.released d.outPoint).getD 0 = 0

/-- Whether a payment into the reserve is still owed: it is not a peg-out with a payment in
a block. -/
def unpaid (p : Option PegOut) : Bool := p.all fun p => (s.paid p.txid).all s.isUnconfirmed

end PegState

namespace Bridge

variable (b : Bridge)

theorem pegOutOf_value {p : PegOut} (h : b.pegOutOf t=some p) : p.value = paidTo b.script t.tx := by
  unfold pegOutOf at h
  split at h
  · cases h
  · split at h
    · cases h
      rfl
    · cases h

theorem deposits_eq (h : History) :
    (b.state h).pendingPegIns+(b.state h).unclaimedOnDoge+(b.state h).pendingRefunds =
      ((b.allDeposits h.doge.txs).map fun d =>
        if 0 < d.confirmations ∧ (b.state h).unsettled d then d.value else 0).sum := by
  have hdef : (b.state h).pendingPegIns+(b.state h).unclaimedOnDoge+(b.state h).pendingRefunds =
      total ((((((b.allDeposits h.doge.txs).filter fun d =>
        !isRefunded (b.state h).refunded d).filter (isCredit (b.state h).cancelled)).filter fun d =>
          ((b.state h).released d.outPoint).isNone && 0 < d.confirmations)).map (·.value)) +
      total (((((b.allDeposits h.doge.txs).filter fun d =>
        !isRefunded (b.state h).refunded d).filter fun d => !isCredit (b.state h).cancelled d &&
          ((b.state h).released d.outPoint).getD 0 = 0).filter fun d =>
            0 < d.confirmations).map (·.value)) +
      total ((((b.allDeposits h.doge.txs).filter (isRefunded (b.state h).refunded)).filter fun d =>
        0 < d.confirmations &&
          (b.state h).isUnconfirmed (((b.state h).refunded d.outPoint).getD 0)).map (·.value)) := rfl
  rw [hdef]
  simp only [total_eq_sum,sum_filter]
  rw [← List.sum_map_add,← List.sum_map_add]
  refine sum_congr fun d _ => ?_
  -- the three sums are over disjoint kinds of deposits
  unfold unsettled
  cases isRefunded (b.state h).refunded d with
  | true => simp
  | false =>
    cases isCredit (b.state h).cancelled d with
    | true => simp [and_comm]
    | false =>
      by_cases hpos : 0 < d.confirmations
      · simp [hpos]
      · simp [hpos]

theorem pegOuts_eq (h : History) : (b.state h).pendingPegOuts+(b.state h).unclaimedOnVM = (h.vm.txs.map fun t =>
      if b.vmOutside h.vm.txs t ∧ (b.state h).unpaid (b.pegOutOf t) then paidTo b.script t.tx
      else 0).sum := by
  have hdef : (b.state h).pendingPegOuts+(b.state h).unclaimedOnVM =
      total ((((h.vm.txs.filter (b.vmOutside h.vm.txs)).filterMap b.pegOutOf).filter fun p =>
        ((b.state h).paid p.txid).all (b.state h).isUnconfirmed).map (·.value)) +
      total ((h.vm.txs.filter fun t => b.vmOutside h.vm.txs t && (b.pegOutOf t).isNone).map
        fun t => paidTo b.script t.tx) := rfl
  rw [hdef]
  simp only [total_eq_sum,sum_filter,sum_filterMap]
  rw [← List.sum_map_add]
  refine sum_congr fun t _ => ?_
  cases b.vmOutside h.vm.txs t with
  | false => simp
  | true =>
    cases hp : b.pegOutOf t with
    | none => simp [unpaid]
    | some p =>
      have hvalue : p.value = paidTo b.script t.tx := b.pegOutOf_value hp
      simp [unpaid,hvalue]

theorem depositOf_eq {signed : Bool} {p : OutPoint × TxOut} {d : Deposit} (h : b.depositOf signed t p=some d) :
    d.outPoint = p.1 ∧ d.value = p.2.value ∧ d.confirmations = t.confirmations := by
  unfold depositOf at h
  split at h
  · cases h
    exact ⟨rfl,rfl,rfl⟩
  · split at h
    · cases h
    · cases h
      exact ⟨rfl,rfl,rfl⟩

/-- What an output of a Dogecoin transaction in a block adds to the surplus: what it counts for
if it is locked, less what is owed for it. -/
def dogeOutput (h : History) (t : ChainTx) (p : OutPoint × TxOut) : Int64 :=
  (if b.watches p.2.pkScript ∧ Locked h.doge.txs p.1 then countedValue h.doge.txs p.1 p.2.value else 0) -
    if (b.depositOf (b.dogeSigned h.doge.txs t) t p).any (b.state h).unsettled then p.2.value else 0

def dogeTerm (h : History) (t : ChainTx) : Int64 :=
  if 0 < t.confirmations then (t.tx.outputs.map (b.dogeOutput h t)).sum else 0

/-- What a DogecoinVM transaction adds: the coins of the reserve it left, less what was
created by it and what is owed for it. -/
def vmTerm (h : History) (t : ChainTx) : Int64 :=
  (if t.confirmations ≠ 0 ∨ b.vmSigned h.vm.txs t then
      ((coinsTo b.script t).map fun u => if Unspent h.vm.txs u.outPoint then u.value else 0).sum
    else 0) -
  (if isCoinbase t.tx ∧ 0 < t.confirmations then paidTo b.script t.tx else 0) -
  if b.vmOutside h.vm.txs t ∧ (b.state h).unpaid (b.pegOutOf t) then paidTo b.script t.tx else 0

theorem sum_dogeTerm (h : History) : (h.doge.txs.map (b.dogeTerm h)).sum = (b.state h).locked -
      ((b.state h).pendingPegIns+(b.state h).unclaimedOnDoge+(b.state h).pendingRefunds) := by
  rw [locked_eq,deposits_eq,inBlocks,sum_filter,allDeposits,sum_flatMap,eq_sub_iff_add_eq,← List.sum_map_add]
  refine sum_congr fun t _ => ?_
  rw [sum_filterMap,sum_coinsWhere,dogeTerm]
  by_cases hpos : 0 < t.confirmations
  · rw [if_pos hpos,if_pos (decide_eq_true hpos),← List.sum_map_add]
    refine sum_congr fun p _ => ?_
    rw [dogeOutput,sub_add_eq_add_sub,add_sub_assoc,add_eq_left.mpr]
    · by_cases hw : b.watches p.2.pkScript <;> simp [hw]
    · rw [sub_eq_zero]
      cases hd : b.depositOf (b.dogeSigned h.doge.txs t) t p with
      | none => rfl
      | some d =>
        obtain ⟨-,hv,hc⟩ := b.depositOf_eq hd
        simp [hv,hc,hpos]
  · rw [if_neg hpos,if_neg (by simpa using hpos),zero_add]
    refine sum_eq_zero fun p _ => ?_
    cases hd : b.depositOf (b.dogeSigned h.doge.txs t) t p with
    | none => rfl
    | some d => simp [(b.depositOf_eq hd).2.2,hpos]

theorem sum_vmTerm (h : History) :
    (h.vm.txs.map (b.vmTerm h)).sum = (b.state h).reserveUnspent-(b.state h).reserveCreated -
      ((b.state h).pendingPegOuts+(b.state h).unclaimedOnVM) := by
  have hcreated : (b.state h).reserveCreated = total ((h.vm.txs.filter fun t =>
    isCoinbase t.tx && 0 < t.confirmations).map fun t => paidTo b.script t.tx) := rfl
  rw [reserveUnspent_eq,pegOuts_eq,hcreated,total_eq_sum,sum_filter,eq_sub_iff_add_eq,
    eq_sub_iff_add_eq,← List.sum_map_add,← List.sum_map_add]
  refine sum_congr fun t _ => ?_
  simp only [vmTerm,Bool.and_eq_true,decide_eq_true_eq,sub_add_cancel]

theorem surplus_eq (h : History) :
    b.surplus h = (h.doge.txs.map (b.dogeTerm h)).sum+(h.vm.txs.map (b.vmTerm h)).sum := by
  have hfees : (b.state h).pendingFees = 0 := rfl
  rw [sum_dogeTerm,sum_vmTerm]
  simp only [surplus,audit,owed,circulating,hfees]
  abel

end Bridge

end

end DogePeg
