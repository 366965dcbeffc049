import DogePeg.Signer.Log

/-!
# Following a line to its end

The loops of `lineage.tip` and `anchorMoved` are bounded by the number of the script's coins. On a
confirmed history that is enough, however often the line ends and is started again: each step goes
to a coin that a later transaction spends.
-/

namespace DogePeg

open Walk List

section Line

variable [Hashing] {txs hist : List ChainTx} {script : Script} {rootDepth : ℤ} {cur : OutPoint}

/-- A history in the order it confirmed in: no transaction spends an output of its own or of a later
one. -/
structure InOrder (hist : List ChainTx) : Prop where
  depths : hist.Pairwise fun t u => u.confirmations ≤ t.confirmations
  spends : hist.Pairwise fun t u => ∀ p∈u.tx.outputs, p.1 ∉ t.tx.spends
  self : ∀ t∈hist, ∀ p∈t.tx.outputs, p.1 ∉ t.tx.spends

omit [Hashing] in
theorem rel_of_idxOf_le {R : ChainTx → ChainTx → Prop} {t u : ChainTx} (h : hist.Pairwise R)
    (hself : ∀ t∈hist, R t t) (ht : t∈hist) (hu : u∈hist) (hle : hist.idxOf t≤hist.idxOf u) : R t u := by
  rcases hle.eq_or_lt with heq | hlt
  · exact (idxOf_inj ht).mp heq ▸ hself t ht
  · have hrel := pairwise_iff_getElem.mp h _ _ (idxOf_lt_length_of_mem ht) (idxOf_lt_length_of_mem hu) hlt
    simpa using hrel

/-- Where in the history a coin is spent. -/
def spentAt (l : Lineage) (hist : List ChainTx) (op : OutPoint) : ℕ := (l.spentBy op).elim hist.length hist.idxOf

omit [Hashing] in
theorem spentAt_le (l : Lineage) (hist : List ChainTx) (op : OutPoint) : spentAt l hist op ≤ hist.length := by
  unfold spentAt
  cases l.spentBy op with
  | none => exact le_rfl
  | some t => exact idxOf_le_length

theorem Lineage.follow_of_nextCoin {l : Lineage} {nxt : OutPoint} (h : l.nextCoin cur=some nxt) :
    l.follow cur = some nxt := by
  unfold nextCoin at h
  split at h
  · next res hres => exact follow_eq_some.mpr (step_of_next_ok (h ▸ hres))
  · cases h

section

variable (h : InOrder hist) (hperm : (inBlocks txs).Perm hist)

include h hperm

theorem InOrder.follow_later {x y z : OutPoint} (hxy : (newLineage txs script rootDepth).follow x=some y)
    (hyz : (newLineage txs script rootDepth).follow y=some z) :
    spentAt (newLineage txs script rootDepth) hist x < spentAt (newLineage txs script rootDepth) hist y := by
  obtain ⟨u,hu,hy⟩ := Lineage.step_ok_some.mp (Lineage.follow_eq_some.mp hxy)
  obtain ⟨v,hv,-⟩ := Lineage.step_ok_some.mp (Lineage.follow_eq_some.mp hyz)
  obtain ⟨humem,-⟩ := newLineage_spentBy_some hu
  obtain ⟨hvmem,hspends⟩ := newLineage_spentBy_some hv
  rw [hperm.mem_iff] at humem hvmem
  simp only [spentAt,hu,hv,Option.elim_some]
  by_contra hle
  rw [not_lt] at hle
  have hmade {t : ChainTx} (ht : t∈hist) {out : TxOut} (hout : (y,out)∈t.tx.outputs) :
      ¬ hist.idxOf v ≤ hist.idxOf t := fun hvt => rel_of_idxOf_le h.spends h.self hvmem ht hvt _ hout hspends
  rcases hy with hlast | ⟨-,r,hr,rfl⟩
  · rw [newLineage_script] at hlast
    obtain ⟨out,hout,-⟩ := mem_coinPoints.mp (lastOutputTo_mem hlast)
    exact hmade humem hout hle
  · -- the line was started again in a later block than it ended in
    obtain ⟨hcoin,-,hlater⟩ := Lineage.root_starts hr
    obtain ⟨m,hm,hcoin⟩ := mem_newLineage_coins.mp hcoin
    obtain ⟨hout,-,hdepth⟩ := mem_coinsTo.mp hcoin
    have hpos := (mem_inBlocks.mp (hperm.mem_iff.mpr humem)).2
    rw [hperm.mem_iff] at hm
    have hmv : hist.idxOf m ≤ hist.idxOf v := (not_le.mp (hmade hm hout)).le
    have hdeep := rel_of_idxOf_le h.depths (fun _ _ => le_rfl) hm hvmem hmv
    have hdeep' := rel_of_idxOf_le h.depths (fun _ _ => le_rfl) hvmem humem hle
    have hlt := hlater hpos
    omega

/-- A walk along the line from one of its coins, with restarts or without, is no longer than the
coins are many. -/
theorem InOrder.exists_walk {next : OutPoint → Option OutPoint} {n : ℕ}
    (hnext : ∀ x y, next x = some y → (newLineage txs script rootDepth).follow x = some y)
    (hcur : cur∈(newLineage txs script rootDepth).coins.map (·.outPoint))
    (hn : (newLineage txs script rootDepth).coins.length≤n) : ∃ τ, walk next n cur = some τ := by
  obtain ⟨τ,hlead,hend⟩ := exists_end
    (fun x y z hxy hyz => h.follow_later hperm (hnext x y hxy) (hnext y z hyz)) (spentAt_le _ _) cur
  refine ⟨τ,walk_eq_end ((newLineage txs script rootDepth).coins.map (·.outPoint)) hlead hend (fun x hx => ?_)
    (by rwa [length_map])⟩
  exact mem_coins_of_leads hcur (hx.mono fun x y _ => hnext x y)

theorem InOrder.exists_trail (cur : OutPoint) : ∃ τ, walk (newLineage txs script rootDepth).nextCoin
    ((newLineage txs script rootDepth).coins.length+2) cur = some τ := by
  rw [walk]
  cases hcur : (newLineage txs script rootDepth).nextCoin cur with
  | none => exact ⟨cur,rfl⟩
  | some nxt =>
    refine h.exists_walk hperm (fun _ _ => Lineage.follow_of_nextCoin) ?_ (Nat.le_succ _)
    exact mem_map.mpr (Lineage.step_mem (Lineage.follow_eq_some.mp (Lineage.follow_of_nextCoin hcur)))

end

theorem Lineage.step_ne_tooLong (l : Lineage) (cur : OutPoint) (s : Script) : l.step cur ≠ .error (.tooLong s) := by
  cases hspent : l.spentBy cur with
  | none => simp [step,next,hspent]
  | some t =>
    cases hlast : lastOutputTo l.script t.tx with
    | some op => simp [step,next,hspent,hlast]
    | none => cases hroot : l.root t.confirmations <;> simp [step,next,hspent,hlast,hroot]

theorem Lineage.tipFrom_ne_tooLong {l : Lineage} {n : ℕ} {τ : OutPoint} (hwalk : walk l.follow n cur=some τ)
    (moved : Bool) (s : Script) : l.tipFrom n cur moved ≠ .error (.tooLong s) := by
  induction n generalizing cur moved with
  | zero => cases hwalk
  | succ n ih =>
    rw [tipFrom]
    cases hstep : l.step cur with
    | error e =>
      intro heq
      cases heq
      exact l.step_ne_tooLong cur s hstep
    | ok res =>
      cases res with
      | none => simp
      | some nxt => exact ih (by simpa [walk,follow,hstep] using hwalk) true

theorem anchorTrail_ne_tooLong {l : Lineage} {n : ℕ} {want τ : OutPoint} {chain c : ChainName}
    {inChain : OutPoint → Bool}
    (hwalk : walk l.nextCoin n cur=some τ) : anchorTrail chain inChain l want n cur ≠ .error (.trailTooLong c) := by
  induction n generalizing cur with
  | zero => cases hwalk
  | succ n ih =>
    rw [anchorTrail]
    split
    · simp
    · cases hnext : l.next cur with
      | error e => simp
      | ok res =>
        cases res with
        | none => simp only; split <;> simp
        | some nxt => exact ih (by simpa [walk,Lineage.nextCoin,hnext] using hwalk)

/-- However often the line ends and is started again, it is followed to its end. -/
theorem line_always_followed (h : InOrder hist) (hperm : (inBlocks txs).Perm hist) (script : Script) (rootDepth : ℤ) :
    (∀ s, (newLineage txs script rootDepth).tip ≠ .error (.tooLong s)) ∧ ∀ (log : SigningLog) chain tx inChain c,
        log.anchorMoved chain tx inChain (newLineage txs script rootDepth) ≠ .error (.trailTooLong c) := by
  refine ⟨fun s => ?_, fun log chain tx inChain c => ?_⟩
  · unfold Lineage.tip
    split
    · nofun
    · next r hr =>
      obtain ⟨τ,hwalk⟩ := h.exists_walk hperm (fun _ _ => id) (mem_map_of_mem (Lineage.root_starts hr).1)
        (Nat.le_succ _)
      split
      · next e herr =>
        intro heq
        cases heq
        exact Lineage.tipFrom_ne_tooLong hwalk false s herr
      · nofun
  · unfold SigningLog.anchorMoved
    split
    · nofun
    · split
      · nofun
      · next last _ =>
        obtain ⟨τ,hwalk⟩ := h.exists_trail hperm last
        exact anchorTrail_ne_tooLong hwalk

end Line

section Sample

attribute [local instance] sampleHashing

/-- A payment to the script, a transaction that spends it and pays nothing back, and a payment of a
later block. -/
def restartedLine : List ChainTx :=
  [⟨samplePayment,3,0⟩,⟨⟨1,[⟨samplePayment.outPoint 0,[],[],0⟩],[⟨1,[2]⟩],0,by decide⟩,2,0⟩,
    ⟨⟨1,[],[⟨7,[1]⟩],0,by decide⟩,1,0⟩]

theorem restartedLine_followed : ((newLineage restartedLine [1] 1).tip.toOption.any fun r => r.any (·.moved)) = true ∧
    ∀ s, (newLineage restartedLine [1] 1).tip ≠ .error (.tooLong s) := ⟨by decide +kernel, (line_always_followed
    (⟨by decide +kernel, by decide +kernel, by decide +kernel⟩ : InOrder restartedLine) (.refl _) [1] 1).1⟩

end Sample

end DogePeg
