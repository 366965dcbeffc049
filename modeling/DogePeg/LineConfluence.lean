import DogePeg.Lib.Walk
import DogePeg.Lineage
import Mathlib.Data.List.Induction
import Mathlib.Data.List.Pairwise

/-!
# Every spent coin leads to one tip

Which coin is the root of a line changes as older coins are spent beside the anchor. Where every
transaction spending a coin of the script also spends what was then the tip, and pays something back,
following `next` from any spent coin ends at one unspent coin, and that coin is the tip.

A history lists transactions in the order a node was shown them: a payment shown late, from an old
block, stands after transactions of later blocks.
-/

namespace DogePeg

open Walk List Lineage

variable {more : List BlockTx} {d : OutPoint}

structure BlockTx where
  tx : MsgTx
  height : ℤ
  time : ℤ
  deriving DecidableEq

def BlockTx.listed (now : ℤ) (t : BlockTx) : ChainTx := ⟨t.tx,now-t.height+1,t.time⟩

/-- `txs` is what a node at height `now` may list for a confirmed history: its
transactions in any order, and any unconfirmed ones. -/
structure Lists (hist : List BlockTx) (now : ℤ) (txs : List ChainTx) : Prop where
  heights : ∀ t∈hist, t.height ≤ now
  confirmed : (inBlocks txs).Perm (hist.map (BlockTx.listed now))

/-- The coin after a coin, if the line goes on without a restart. -/
def Lineage.nextCoin [Hashing] (l : Lineage) (cur : OutPoint) : Option OutPoint :=
  match l.next cur with
  | .ok res => res
  | .error _ => none

section Line

variable [Hashing] (script : Script) (rootDepth : ℤ)

def CoinOf (hist : List BlockTx) (c : OutPoint) : Prop := ∃ t∈hist, c∈coinPoints script t.tx

def SpentIn (hist : List BlockTx) (c : OutPoint) : Prop := ∃ t∈hist, c∈t.tx.spends

/-- A confirmed history of a script in which every spender of a coin follows the line:
when it confirmed it spent the tip, as read from what had been shown by then, and it
pays something back. -/
structure LineHistory (hist : List BlockTx) : Prop where
  txids : (hist.map fun t => t.tx.txHash).Nodup
  funded : ∀ p t s, hist = p++t::s → ∀ c∈t.tx.spends, CoinOf script hist c →
    CoinOf script p c
  spentOnce : hist.Pairwise fun t u => ∀ c∈t.tx.spends, c∈u.tx.spends → ¬ CoinOf script hist c
  onLine : ∀ p t s, hist = p++t::s → (∃ c∈t.tx.spends, CoinOf script p c) →
    (∀ u∈p, u.height ≤ t.height) ∧
      (∃ r, (newLineage (p.map (BlockTx.listed t.height)) script rootDepth).tip = .ok (some r) ∧
        r.tip ∈ t.tx.spends) ∧
      coinPoints script t.tx ≠ []

/-- The coin after a coin, read from the history alone. -/
def lineNext (hist : List BlockTx) (c : OutPoint) : Option OutPoint :=
  (hist.find? fun t => c ∈ t.tx.spends).bind fun t => lastOutputTo script t.tx

variable {script rootDepth} {hist : List BlockTx} {c : OutPoint}

section Histories

theorem CoinOf.mono (h : CoinOf script hist c) : CoinOf script (hist++more) c := by
  obtain ⟨t,ht,hc⟩ := h
  exact ⟨t,mem_append_left _ ht,hc⟩

theorem LineHistory.prefix (h : LineHistory script rootDepth (hist++more)) : LineHistory script rootDepth hist where
  txids := by
    have := h.txids
    rw [map_append] at this
    exact this.of_append_left
  funded p t s hsplit c hc hcoin :=
    h.funded p t (s++more) (by simp [hsplit]) c hc hcoin.mono
  spentOnce := (pairwise_append.mp h.spentOnce).1.imp fun hpair c hc hu hcoin =>
    hpair c hc hu hcoin.mono
  onLine p t s hsplit hspends := h.onLine p t (s++more) (by simp [hsplit]) hspends

theorem LineHistory.coin_tx_unique (h : LineHistory script rootDepth hist) {t u : BlockTx}
    (ht : t∈hist) (hu : u∈hist) (hct : c∈coinPoints script t.tx) (hcu : c∈coinPoints script u.tx) : t = u := by
  apply inj_on_of_nodup_map h.txids ht hu
  rw [← hash_of_mem_coinPoints hct,← hash_of_mem_coinPoints hcu]

theorem LineHistory.spender_unique (h : LineHistory script rootDepth hist) {t u : BlockTx}
    (hcoin : CoinOf script hist c) (ht : t∈hist) (hu : u∈hist) (hct : c∈t.tx.spends)
    (hcu : c∈u.tx.spends) : t = u := by
  by_contra hne
  have hsymm : Std.Symm fun t u : BlockTx =>
      ∀ c∈t.tx.spends, c∈u.tx.spends → ¬ CoinOf script hist c :=
    ⟨fun _ _ hab c hb ha => hab c ha hb⟩
  exact h.spentOnce.forall ht hu hne c hct hcu hcoin

/-- The coins of the transaction shown last are unspent: a spender stands after the
maker of the coin. -/
theorem LineHistory.fresh_unspent {t : BlockTx}
    (h : LineHistory script rootDepth (hist++[t])) (hc : c∈coinPoints script t.tx) : ¬ SpentIn (hist++[t]) c := by
  rintro ⟨u,hu,hcu⟩
  have hlast : t∈hist++[t] := by simp
  have hcoin : CoinOf script (hist++[t]) c := ⟨t,hlast,hc⟩
  have hearlier : CoinOf script hist c := by
    rcases mem_append.mp hu with hu | hu
    · obtain ⟨p,s,rfl⟩ := append_of_mem hu
      exact (h.funded p u (s++[t]) (by simp) c hcu hcoin).mono
    · obtain rfl := mem_singleton.mp hu
      exact h.funded hist u [] rfl c hcu hcoin
  obtain ⟨v,hv,hcv⟩ := hearlier
  obtain rfl := h.coin_tx_unique (mem_append_left _ hv) hlast hcv hc
  have hnodup := h.txids.of_map
  exact (nodup_append.mp hnodup).2.2 v hv v (by simp) rfl

theorem lineNext_append_of_spent (hs : SpentIn hist c) : lineNext script (hist++more) c = lineNext script hist c := by
  obtain ⟨t,ht,hc⟩ := hs
  have hsome : (hist.find? fun t => c ∈ t.tx.spends).isSome := List.find?_isSome.mpr ⟨t,ht,by simpa using hc⟩
  obtain ⟨u,hu⟩ := Option.isSome_iff_exists.mp hsome
  simp [lineNext,List.find?_append,hu]

theorem lineNext_append_of_unspent {t : BlockTx} (hs : ¬ SpentIn hist c) (hc : c∈t.tx.spends) :
    lineNext script (hist++[t]) c = lastOutputTo script t.tx := by
  have hnone : (hist.find? fun t => c ∈ t.tx.spends) = none := by
    rw [List.find?_eq_none]
    intro u hu
    simpa using fun hcu => hs ⟨u,hu,hcu⟩
  simp [lineNext,List.find?_append,hnone,hc]

theorem spentIn_of_lineNext (h : lineNext script hist c=some d) : SpentIn hist c ∧ CoinOf script hist d := by
  simp only [lineNext,Option.bind_eq_some_iff] at h
  obtain ⟨t,hfind,hlast⟩ := h
  have ht := mem_of_find?_eq_some hfind
  exact ⟨⟨t,ht,by simpa using List.find?_some hfind⟩,t,ht,lastOutputTo_mem hlast⟩

theorem leads_append (h : Leads (lineNext script hist) c d) : Leads (lineNext script (hist++more)) c d := by
  refine h.mono fun x y _ hxy => ?_
  rw [lineNext_append_of_spent (spentIn_of_lineNext hxy).1,hxy]

theorem lineNext_eq_none (hs : ¬ SpentIn hist c) : lineNext script hist c = none := by
  cases hn : lineNext script hist c with
  | none => rfl
  | some d => exact absurd (spentIn_of_lineNext hn).1 hs

theorem coinOf_of_leads (hc : CoinOf script hist c) (h : Leads (lineNext script hist) c d) : CoinOf script hist d := by
  induction h with
  | refl => exact hc
  | tail _ hstep _ => exact (spentIn_of_lineNext hstep).2

end Histories

section Listings

variable {now : ℤ} {txs : List ChainTx}

omit [Hashing] in
theorem lists_self (h : ∀ u∈hist, u.height ≤ now) : Lists hist now (hist.map (BlockTx.listed now)) := by
  refine ⟨h,?_⟩
  rw [inBlocks,filter_eq_self.mpr]
  intro t ht
  obtain ⟨u,hu,rfl⟩ := mem_map.mp ht
  have hle := h u hu
  refine decide_eq_true ?_
  change 0 < now-u.height+1
  omega

omit [Hashing] in
theorem Lists.mem (hl : Lists hist now txs) {t : ChainTx} : t∈inBlocks txs ↔ ∃ u∈hist, u.listed now = t := by
  rw [hl.confirmed.mem_iff,mem_map]

theorem Lists.coin_mem (hl : Lists hist now txs) {c : OutPoint} :
    (∃ u∈(newLineage txs script rootDepth).coins, u.outPoint = c) ↔ CoinOf script hist c := by
  constructor
  · rintro ⟨u,hu,rfl⟩
    obtain ⟨t,ht,hut⟩ := mem_newLineage_coins.mp hu
    obtain ⟨v,hv,rfl⟩ := hl.mem.mp ht
    refine ⟨v,hv,?_⟩
    have := mem_map_of_mem (f := Utxo.outPoint) hut
    rwa [map_outPoint_coinsTo] at this
  · rintro ⟨v,hv,hc⟩
    change c ∈ coinPoints script (v.listed now).tx at hc
    rw [← map_outPoint_coinsTo,mem_map] at hc
    obtain ⟨u,hu,rfl⟩ := hc
    exact ⟨u,mem_newLineage_coins.mpr ⟨_,hl.mem.mpr ⟨v,hv,rfl⟩,hu⟩,rfl⟩

theorem Lists.spentBy_none (hl : Lists hist now txs) {c : OutPoint} :
    (newLineage txs script rootDepth).spentBy c = none ↔ ¬ SpentIn hist c := by
  rw [newLineage_spentBy_none]
  constructor
  · rintro h ⟨u,hu,hc⟩
    exact h (u.listed now) (hl.mem.mpr ⟨u,hu,rfl⟩) hc
  · intro h t ht hc
    obtain ⟨u,hu,rfl⟩ := hl.mem.mp ht
    exact h ⟨u,hu,hc⟩

theorem Lists.next_eq (h : LineHistory script rootDepth hist) (hl : Lists hist now txs) (hc : CoinOf script hist c) :
    (newLineage txs script rootDepth).next c = .ok (lineNext script hist c) := by
  by_cases hs : SpentIn hist c
  · obtain ⟨t,ht,hct⟩ := hs
    have hspent : (newLineage txs script rootDepth).spentBy c = some (t.listed now) := by
      refine newLineage_spentBy_unique (hl.mem.mpr ⟨t,ht,rfl⟩) hct ?_
      intro u hu hcu
      obtain ⟨v,hv,rfl⟩ := hl.mem.mp hu
      rw [h.spender_unique hc hv ht hcu hct]
    have hfind : (hist.find? fun t => c ∈ t.tx.spends) = some t := by
      cases hf : hist.find? fun t => c ∈ t.tx.spends with
      | none =>
        have := List.find?_eq_none.mp hf t ht
        simp [hct] at this
      | some u =>
        have hu := mem_of_find?_eq_some hf
        rw [h.spender_unique hc hu ht (by simpa using List.find?_some hf) hct]
    -- the spender stands in the history after the maker of `c`, so it pays something back
    obtain ⟨p,s,rfl⟩ := append_of_mem ht
    obtain ⟨-,-,hne⟩ := h.onLine p t s rfl ⟨c,hct,h.funded p t s rfl c hct hc⟩
    obtain ⟨last,hlast⟩ := lastOutputTo_isSome (exists_mem_of_ne_nil _ hne).choose_spec
    have hlast' : lastOutputTo script (t.listed now).tx = some last := hlast
    simp [Lineage.next,hspent,hlast',lineNext,hfind,hlast]
  · simp [Lineage.next,hl.spentBy_none.mpr hs,lineNext_eq_none hs]

end Listings

section Tips

theorem Lineage.nextCoin_of_next_ok {l : Lineage} {res : Option OutPoint} (h : l.next c = .ok res) :
    l.nextCoin c = res := by
  simp [nextCoin,h]

theorem mem_coins_of_leads {txs : List ChainTx} {cur : OutPoint}
    (hc : c∈(newLineage txs script rootDepth).coins.map (·.outPoint))
    (hcur : Leads (newLineage txs script rootDepth).follow c cur) :
    cur ∈ (newLineage txs script rootDepth).coins.map (·.outPoint) := by
  induction hcur with
  | refl => exact hc
  | tail _ hstep _ => exact mem_map.mpr (step_mem (follow_eq_some.mp hstep))

/-- Where every step is one of `next`, the loop of `tip` is a bounded walk. -/
theorem Lineage.tipFrom_eq_walk {l : Lineage} {next : OutPoint → Option OutPoint} (n : ℕ) {cur : OutPoint}
    (moved : Bool) (hstep : ∀ x, Leads next cur x → l.step x = .ok (next x)) :
    (l.tipFrom n cur moved).toOption.map Prod.fst = walk next n cur := by
  induction n generalizing cur moved with
  | zero => rfl
  | succ n ih =>
    rw [walk,tipFrom,hstep cur (Leads.refl _ _)]
    cases hnext : next cur with
    | none => rfl
    | some nxt => exact ih true fun x hx => hstep x (hx.head hnext)

variable (script rootDepth)

/-- `τ` is the unspent coin every spent coin of the history leads to. -/
structure LineEnd (hist : List BlockTx) (τ : OutPoint) : Prop where
  coin : CoinOf script hist τ
  unspent : ¬ SpentIn hist τ
  leads : ∀ c, CoinOf script hist c → SpentIn hist c → Leads (lineNext script hist) c τ

/-- A spent coin is at least `rootDepth` deep at height `now`. -/
def DeepSpent (hist : List BlockTx) (now : ℤ) : Prop :=
  ∃ t∈hist, ∃ c∈coinPoints script t.tx, SpentIn hist c ∧ rootDepth ≤ now-t.height+1

variable {script rootDepth} {now : ℤ} {txs : List ChainTx} {τ : OutPoint}

theorem LineEnd.tipFrom (h : LineHistory script rootDepth hist) (hl : Lists hist now txs)
    (he : LineEnd script hist τ) (hc : CoinOf script hist c)
    (hlead : Leads (lineNext script hist) c τ) (moved : Bool) : ∃ m, (newLineage txs script rootDepth).tipFrom
      ((newLineage txs script rootDepth).coins.length+1) c moved = .ok (τ,m) := by
  have hstep : ∀ x, Leads (lineNext script hist) c x →
      (newLineage txs script rootDepth).step x = .ok (lineNext script hist x) := by
    intro x hx
    exact step_of_next_ok (hl.next_eq h (coinOf_of_leads hc hx))
  have hwalk := tipFrom_eq_walk ((newLineage txs script rootDepth).coins.length+1) moved hstep
  rw [walk_eq_end ((newLineage txs script rootDepth).coins.map Utxo.outPoint) hlead (lineNext_eq_none he.unspent)
    (fun x hx => mem_map.mpr (hl.coin_mem.mpr (coinOf_of_leads hc hx))) (by simp)] at hwalk
  generalize (newLineage txs script rootDepth).tipFrom _ c moved = res at hwalk ⊢
  rcases res with e | ⟨tip,m⟩ <;> cases hwalk
  exact ⟨m,rfl⟩

theorem LineEnd.tip_eq (h : LineHistory script rootDepth hist) (hl : Lists hist now txs)
    (he : LineEnd script hist τ) (hdeep : DeepSpent script rootDepth hist now) :
    ∃ r, (newLineage txs script rootDepth).tip = .ok (some r) ∧ r.tip = τ := by
  obtain ⟨t,ht,c,hc,hs,hdepth⟩ := hdeep
  change c ∈ coinPoints script (t.listed now).tx at hc
  rw [← map_outPoint_coinsTo,mem_map] at hc
  obtain ⟨u,hu,rfl⟩ := hc
  have hucoin : u∈(newLineage txs script rootDepth).coins := mem_newLineage_coins.mpr ⟨_,hl.mem.mpr ⟨t,ht,rfl⟩,hu⟩
  have hudeep : (newLineage txs script rootDepth).rootDepth ≤ u.confirmations := by
    rw [newLineage_rootDepth,(mem_coinsTo.mp hu).2.2]
    exact hdepth
  have huspent : ((newLineage txs script rootDepth).spentBy u.outPoint).isSome := by
    rw [Option.isSome_iff_ne_none,ne_eq,hl.spentBy_none,not_not]
    exact hs
  obtain ⟨r,hroot,hrspent⟩ := exists_root (⟨hucoin,hudeep,by simp⟩ : Starts _ 0 _) huspent
  have hr : CoinOf script hist r.outPoint := hl.coin_mem.mp ⟨r,(root_starts hroot).1,rfl⟩
  have hrs : SpentIn hist r.outPoint := by
    rwa [Option.isSome_iff_ne_none,ne_eq,hl.spentBy_none,not_not] at hrspent
  obtain ⟨m,hm⟩ := he.tipFrom h hl hr (he.leads _ hr hrs) false
  exact ⟨⟨τ,r.outPoint,m⟩,by simp [tip,hroot,hm], rfl⟩

theorem tip_of_unspent (hl : Lists hist now txs) {r : LineTip} (hnone : ∀ c, CoinOf script hist c → ¬ SpentIn hist c)
    (htip : (newLineage txs script rootDepth).tip = .ok (some r)) :
    ∃ t∈hist, r.tip∈coinPoints script t.tx ∧ rootDepth ≤ now-t.height+1 := by
  simp only [tip] at htip
  split at htip
  · simp at htip
  · rename_i root hroot
    obtain ⟨hcoin,hdepth,-⟩ := root_starts hroot
    have hunspent := hnone _ (hl.coin_mem.mp ⟨root,hcoin,rfl⟩)
    have hspentBy : (newLineage txs script rootDepth).spentBy root.outPoint = none := hl.spentBy_none.mpr hunspent
    have hstep := step_of_next_ok (next_ok_none.mpr hspentBy)
    simp only [tipFrom,hstep,Except.ok.injEq,Option.some.injEq] at htip
    subst htip
    obtain ⟨t,ht,hroott⟩ := mem_newLineage_coins.mp hcoin
    obtain ⟨v,hv,rfl⟩ := hl.mem.mp ht
    have hmem := mem_map_of_mem (f := Utxo.outPoint) hroott
    rw [map_outPoint_coinsTo] at hmem
    rw [newLineage_rootDepth,(mem_coinsTo.mp hroott).2.2] at hdepth
    exact ⟨v,hv,hmem,hdepth⟩

end Tips

section Growth

variable {t : BlockTx} {τ : OutPoint}

private theorem coinOf_of_spent_append (h : LineHistory script rootDepth (hist++[t]))
    (hc : CoinOf script (hist++[t]) c) (hs : SpentIn (hist++[t]) c) : CoinOf script hist c := by
  obtain ⟨u,hu,hcu⟩ := hc
  rcases mem_append.mp hu with hu | hu
  · exact ⟨u,hu,hcu⟩
  · obtain rfl := mem_singleton.mp hu
    exact absurd hs (h.fresh_unspent hcu)

omit [Hashing] in
private theorem spentIn_append : SpentIn (hist++[t]) c ↔ SpentIn hist c ∨ c∈t.tx.spends := by
  simp [SpentIn,or_and_right,exists_or]

theorem LineEnd.append_other (h : LineHistory script rootDepth (hist++[t]))
    (he : LineEnd script hist τ) (hno : ∀ c∈t.tx.spends, ¬ CoinOf script hist c) :
    LineEnd script (hist++[t]) τ where
  coin := he.coin.mono
  unspent hs := by
    rcases spentIn_append.mp hs with hs | hs
    · exact he.unspent hs
    · exact hno τ hs he.coin
  leads c hc hs := by
    have hc' := coinOf_of_spent_append h hc hs
    rcases spentIn_append.mp hs with hs | hs
    · exact leads_append (he.leads c hc' hs)
    · exact absurd hc' (hno c hs)

theorem LineEnd.append_spender (h : LineHistory script rootDepth (hist++[t]))
    {σ last : OutPoint} (hσs : ¬ SpentIn hist σ) (hspends : σ∈t.tx.spends) (hlast : lastOutputTo script t.tx=some last)
    (hlead : ∀ c, CoinOf script hist c → SpentIn hist c → Leads (lineNext script hist) c σ) :
    LineEnd script (hist++[t]) last ∧ Leads (lineNext script (hist++[t])) σ last := by
  have hstep : ∀ c∈t.tx.spends, ¬ SpentIn hist c → Leads (lineNext script (hist++[t])) c last := by
    intro c hc hs
    refine Leads.head ?_ (Leads.refl _ _)
    rw [lineNext_append_of_unspent hs hc,hlast]
  refine ⟨⟨⟨t,by simp, lastOutputTo_mem hlast⟩,h.fresh_unspent (lastOutputTo_mem hlast),?_⟩,hstep σ hspends hσs⟩
  intro c hc hs
  have hc' := coinOf_of_spent_append h hc hs
  by_cases hold : SpentIn hist c
  · exact (leads_append (hlead c hc' hold)).trans (hstep σ hspends hσs)
  · exact hstep c ((spentIn_append.mp hs).resolve_left hold) hold

/-- A history in which a coin was spent has an end, and the spent coin the line was
first read from was deep enough when it was spent. -/
structure EndedLine (script : Script) (rootDepth : ℤ) (hist : List BlockTx) (τ : OutPoint) : Prop where
  lineEnd : LineEnd script hist τ
  deep : ∃ v∈hist, DeepSpent script rootDepth hist v.height

private theorem DeepSpent.append {now : ℤ} (hd : DeepSpent script rootDepth hist now) :
    DeepSpent script rootDepth (hist++[t]) now := by
  obtain ⟨u,hu,c,hc,hs,hdepth⟩ := hd
  exact ⟨u,mem_append_left _ hu,c,hc,spentIn_append.mpr (.inl hs),hdepth⟩

private theorem DeepSpent.later {now later : ℤ} (hd : DeepSpent script rootDepth hist now)
    (hle : now≤later) : DeepSpent script rootDepth hist later := by
  obtain ⟨u,hu,c,hc,hs,hdepth⟩ := hd
  exact ⟨u,hu,c,hc,hs,by omega⟩

theorem EndedLine.append (h : LineHistory script rootDepth (hist++[t])) (he : EndedLine script rootDepth hist τ) :
    ∃ σ, EndedLine script rootDepth (hist++[t]) σ ∧ Leads (lineNext script (hist++[t])) τ σ := by
  obtain ⟨v,hv,hdeep⟩ := he.deep
  have hdeep' : ∃ v∈hist++[t], DeepSpent script rootDepth (hist++[t]) v.height :=
    ⟨v,mem_append_left _ hv,hdeep.append⟩
  by_cases hspends : ∃ c∈t.tx.spends, CoinOf script hist c
  · obtain ⟨hheights,⟨r,htip,hr⟩,hne⟩ := h.onLine hist t [] rfl hspends
    have hl := lists_self hheights
    obtain ⟨r',htip',hr'⟩ := he.lineEnd.tip_eq h.prefix hl (hdeep.later (hheights v hv))
    obtain rfl : r = r' := by simpa [htip] using htip'
    subst hr'
    obtain ⟨last,hlast⟩ := lastOutputTo_isSome (exists_mem_of_ne_nil _ hne).choose_spec
    obtain ⟨hend,hlead⟩ := LineEnd.append_spender h he.lineEnd.unspent hr hlast he.lineEnd.leads
    exact ⟨last,⟨hend,hdeep'⟩,hlead⟩
  · push Not at hspends
    exact ⟨τ,⟨he.lineEnd.append_other h hspends,hdeep'⟩,Leads.refl _ _⟩

theorem EndedLine.start (h : LineHistory script rootDepth (hist++[t]))
    (hnone : ∀ c, CoinOf script hist c → ¬ SpentIn hist c) (hspends : ∃ c∈t.tx.spends, CoinOf script hist c) :
    ∃ σ, EndedLine script rootDepth (hist++[t]) σ := by
  obtain ⟨hheights,⟨r,htip,hr⟩,hne⟩ := h.onLine hist t [] rfl hspends
  have hl := lists_self hheights
  obtain ⟨u,hu,hru,hdepth⟩ := tip_of_unspent hl hnone htip
  have hcoin : CoinOf script hist r.tip := ⟨u,hu,hru⟩
  obtain ⟨last,hlast⟩ := lastOutputTo_isSome (exists_mem_of_ne_nil _ hne).choose_spec
  obtain ⟨hend,-⟩ := LineEnd.append_spender h (hnone _ hcoin) hr hlast fun c hc hs => absurd hs (hnone c hc)
  exact ⟨last,hend,t,by simp, u, mem_append_left _ hu, r.tip, hru, spentIn_append.mpr (.inr hr), hdepth⟩

theorem exists_endedLine (h : LineHistory script rootDepth hist)
    (hs : ∃ c, CoinOf script hist c ∧ SpentIn hist c) : ∃ τ, EndedLine script rootDepth hist τ := by
  induction hist using List.reverseRecOn with
  | nil =>
    obtain ⟨c,⟨t,ht,-⟩,-⟩ := hs
    simp at ht
  | append_singleton hist t ih =>
    by_cases hold : ∃ c, CoinOf script hist c ∧ SpentIn hist c
    · obtain ⟨τ,he⟩ := ih h.prefix hold
      obtain ⟨σ,hσ,-⟩ := he.append h
      exact ⟨σ,hσ⟩
    · push Not at hold
      obtain ⟨c,hc,hcs⟩ := hs
      have hc' := coinOf_of_spent_append h hc hcs
      exact EndedLine.start h hold ⟨c,(spentIn_append.mp hcs).resolve_left (hold c hc'),hc'⟩

/-- Along a growing history the line's end only moves forward. -/
theorem EndedLine.grow (h : LineHistory script rootDepth (hist++more)) (he : EndedLine script rootDepth hist τ) :
    ∃ σ, EndedLine script rootDepth (hist++more) σ ∧ Leads (lineNext script (hist++more)) τ σ := by
  induction more using List.reverseRecOn with
  | nil => exact ⟨τ,by simpa using he, Leads.refl _ _⟩
  | append_singleton more t ih =>
    rw [← append_assoc] at h ⊢
    obtain ⟨σ,hσ,hlead⟩ := ih h.prefix
    obtain ⟨ρ,hρ,hlead'⟩ := hσ.append h
    exact ⟨ρ,hρ,(leads_append hlead).trans hlead'⟩

end Growth

section Confluence

variable (script rootDepth)

/-- `τ` is where the line ends, as `lineage` reads it from any listing of the history at
any height: an unspent coin, which following `next` from every spent coin reaches, and
the tip once a spent coin is deep enough to be the root. -/
def LineEndsAt (hist : List BlockTx) (τ : OutPoint) : Prop :=
  ∀ now txs, Lists hist now txs →
    let l := newLineage txs script rootDepth
    (∃ u∈l.coins, u.outPoint = τ) ∧ l.spentBy τ = none ∧
      (∀ u∈l.coins, (l.spentBy u.outPoint).isSome → Leads l.nextCoin u.outPoint τ) ∧
      ((∃ u∈l.coins, rootDepth ≤ u.confirmations ∧ (l.spentBy u.outPoint).isSome) →
        ∃ r, l.tip = .ok (some r) ∧ r.tip = τ)

variable {script rootDepth} {τ : OutPoint}

private theorem leads_nextCoin (h : LineHistory script rootDepth hist) {now : ℤ}
    {txs : List ChainTx} (hl : Lists hist now txs) (hc : CoinOf script hist c)
    (hlead : Leads (lineNext script hist) c d) : Leads (newLineage txs script rootDepth).nextCoin c d := by
  refine hlead.mono fun x y hx hxy => ?_
  rw [nextCoin_of_next_ok (hl.next_eq h (coinOf_of_leads hc hx)),hxy]

private theorem LineEnd.endsAt (h : LineHistory script rootDepth hist)
    (he : LineEnd script hist τ) : LineEndsAt script rootDepth hist τ := by
  intro now txs hl
  have hspent : ∀ u : Utxo, ((newLineage txs script rootDepth).spentBy u.outPoint).isSome →
      SpentIn hist u.outPoint := by
    intro u hu
    rwa [Option.isSome_iff_ne_none,ne_eq,hl.spentBy_none,not_not] at hu
  refine ⟨hl.coin_mem.mpr he.coin,hl.spentBy_none.mpr he.unspent,?_,?_⟩
  · intro u hu hs
    have hc := hl.coin_mem.mp ⟨u,hu,rfl⟩
    exact leads_nextCoin h hl hc (he.leads _ hc (hspent u hs))
  · rintro ⟨u,hu,hdeep,hs⟩
    obtain ⟨t,ht,hut⟩ := mem_newLineage_coins.mp hu
    obtain ⟨v,hv,rfl⟩ := hl.mem.mp ht
    have hmem := mem_map_of_mem (f := Utxo.outPoint) hut
    rw [map_outPoint_coinsTo] at hmem
    rw [(mem_coinsTo.mp hut).2.2] at hdeep
    exact he.tip_eq h hl ⟨v,hv,u.outPoint,hmem,hspent u hs,hdeep⟩

/-- Anchor line confluence. Once a coin of the script is spent, the line has one end,
whatever the root, the order of the listing, its unconfirmed transactions and the
height it is read at; a longer history only moves the end forward along `next`, and
one that only adds payments to the script, from whatever blocks, leaves it. -/
theorem line_confluence (h : LineHistory script rootDepth hist) (hs : ∃ c, CoinOf script hist c ∧ SpentIn hist c) :
    ∃ τ, LineEndsAt script rootDepth hist τ ∧ ∀ more, LineHistory script rootDepth (hist++more) →
        ∃ σ, LineEndsAt script rootDepth (hist++more) σ ∧ (∀ now txs, Lists (hist++more) now txs →
            Leads (newLineage txs script rootDepth).nextCoin τ σ) ∧
          ((∀ t∈more, ∀ c∈t.tx.spends, ¬ CoinOf script (hist++more) c) → σ = τ) := by
  obtain ⟨τ,he⟩ := exists_endedLine h hs
  refine ⟨τ,he.lineEnd.endsAt h,?_⟩
  intro more hmore
  obtain ⟨σ,hσ,hlead⟩ := he.grow hmore
  have hcoin : CoinOf script (hist++more) τ := he.lineEnd.coin.mono
  refine ⟨σ,hσ.lineEnd.endsAt hmore,fun now txs hl => leads_nextCoin hmore hl hcoin hlead, ?_⟩
  intro hpayments
  have hunspent : ¬ SpentIn (hist++more) τ := by
    rintro ⟨t,ht,hc⟩
    rcases mem_append.mp ht with ht | ht
    · exact he.lineEnd.unspent ⟨t,ht,hc⟩
    · exact hpayments t ht τ hc hcoin
  exact hlead.end_unique (lineNext_eq_none hσ.lineEnd.unspent) (Leads.refl _ _) (lineNext_eq_none hunspent)

end Confluence

end Line

section Sample

attribute [local instance] sampleHashing

instance [Hashing] (script : Script) (hist : List BlockTx) (c : OutPoint) :
    Decidable (CoinOf script hist c) :=
  inferInstanceAs (Decidable (∃ t∈hist, c∈coinPoints script t.tx))

private theorem splits_of_take {α : Type*} {P : List α → α → Prop} {l : List α}
    (h : ∀ i : Fin l.length, P (l.take i) (l.get i)) (p : List α) (t : α) (s : List α)
    (hl : l=p++t::s) : P p t := by
  subst hl
  simpa using h ⟨p.length,by simp⟩

def samplePayment : MsgTx := ⟨1,[],[⟨5,[1]⟩],0,by decide⟩

/-- A payment to the script, the transaction that spends it, and a payment of the same
block as the first, shown after it was spent. -/
def sampleLine : List BlockTx :=
  [⟨samplePayment,1,0⟩,⟨⟨1,[⟨samplePayment.outPoint 0,[],[],0⟩],[⟨1,[2]⟩,⟨4,[1]⟩],0,by decide⟩,3,0⟩,
    ⟨⟨1,[],[⟨6,[1]⟩],0,by decide⟩,1,0⟩]

theorem sampleLine_lineHistory : LineHistory [1] 2 sampleLine where
  txids := by decide +kernel
  funded := splits_of_take (P := fun p t => ∀ c∈t.tx.spends, CoinOf [1] sampleLine c → CoinOf [1] p c)
    (by decide +kernel)
  spentOnce := by decide +kernel
  onLine := by
    refine splits_of_take (P := fun p t => (∃ c∈t.tx.spends, CoinOf [1] p c) → (∀ u∈p, u.height ≤ t.height) ∧
        (∃ r, (newLineage (p.map (BlockTx.listed t.height)) [1] 2).tip = .ok (some r) ∧ r.tip∈t.tx.spends) ∧
        coinPoints [1] t.tx ≠ []) ?_
    intro i
    match i with
    | ⟨0,_⟩ =>
      rintro ⟨c,hc,-⟩
      exact absurd hc not_mem_nil
    | ⟨1,h⟩ =>
      intro _
      refine ⟨by decide +kernel +revert, ⟨⟨samplePayment.outPoint 0,samplePayment.outPoint 0,false⟩,
        rfl,by decide +kernel +revert⟩, by decide +kernel +revert⟩
    | ⟨2,_⟩ =>
      rintro ⟨c,hc,-⟩
      exact absurd hc not_mem_nil

theorem sampleLine_confluence : LineHistory [1] 2 sampleLine ∧ ∃ τ, LineEndsAt [1] 2 sampleLine τ := by
  have hspent : ∃ c, CoinOf [1] sampleLine c ∧ SpentIn sampleLine c :=
    ⟨samplePayment.outPoint 0,by decide +kernel, by unfold SpentIn; decide +kernel⟩
  obtain ⟨τ,hτ,-⟩ := line_confluence sampleLine_lineHistory hspent
  exact ⟨sampleLine_lineHistory,τ,hτ⟩

end Sample

end DogePeg
