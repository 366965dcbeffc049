import DogePeg.Bridge.Outsiders
import DogePeg.Signer.Commands

/-!
# The fees of a log's whole life

A log that has been in a cutover pays fences and cancellations from a budget: its share of the
surplus when the budget was fixed, and of each contribution counted since. The budget is kept
in the log, so it survives restarts, and no contribution is counted twice.
-/

namespace DogePeg

open Amounts Checks Relation List Budget

/-! ## Counting contributions -/

namespace Budget

/-- The contributions that `add` counts, of a list it goes through. -/
def counted (deep : ℤ) : List OutPoint → List Utxo → List Utxo
  | _, [] => []
  | capital, u::us =>
    if u.outPoint ∈ capital ∨ u.confirmations < deep then counted deep capital us
    else u::counted deep (capital++[u.outPoint]) us

variable {share surplus : Int64} {deep : ℤ} {capital : List OutPoint} {us : List Utxo} {w : Budget}

theorem foldl_add (share : Int64) (deep : ℤ) (us : List Utxo) (w : Budget) : us.foldl (add share deep) w =
      ⟨w.budget+((counted deep w.capital us).map fun u => u.value / share).sum,
        w.capital++(counted deep w.capital us).map (·.outPoint)⟩ := by
  induction us generalizing w with
  | nil => simp [counted]
  | cons u us ih =>
    rw [foldl_cons,ih,counted,add]
    split
    · rfl
    · simp [add_assoc]

theorem mem_counted {u : Utxo} (h : u∈counted deep capital us) : u∈us ∧ u.outPoint ∉ capital := by
  induction us generalizing capital with
  | nil => cases h
  | cons w us ih =>
    rw [counted] at h
    split at h
    · exact (ih h).imp_left (mem_cons_of_mem _)
    · next hnew =>
      rcases mem_cons.mp h with rfl | h
      · exact ⟨mem_cons_self ..,fun hmem => hnew (.inl hmem)⟩
      · obtain ⟨hus,hcapital⟩ := ih h
        exact ⟨mem_cons_of_mem _ hus,fun hmem => hcapital (mem_append_left _ hmem)⟩

theorem nodup_counted (deep : ℤ) (capital : List OutPoint) (us : List Utxo) :
    ((counted deep capital us).map (·.outPoint)).Nodup := by
  induction us generalizing capital with
  | nil => simp [counted]
  | cons u us ih =>
    rw [counted]
    split
    · exact ih capital
    · rw [map_cons,nodup_cons]
      refine ⟨fun hmem => ?_, ih _⟩
      obtain ⟨w,hw,heq⟩ := mem_map.mp hmem
      exact (mem_counted hw).2 (heq ▸ mem_append_right _ (mem_singleton_self _))

theorem counted_eq_nil (h : ∀ u∈us, deep ≤ u.confirmations → u.outPoint∈capital) :
    counted deep capital us = [] := by
  refine eq_nil_iff_forall_not_mem.mpr fun u hu => (mem_counted hu).2 (h u (mem_counted hu).1 ?_)
  induction us generalizing capital with
  | nil => cases hu
  | cons w us ih =>
    have hw := h w (mem_cons_self ..)
    have hold : w.outPoint∈capital ∨ w.confirmations < deep := by
      by_cases hdeep : deep ≤ w.confirmations
      · exact .inl (hw hdeep)
      · exact .inr (not_le.mp hdeep)
    rw [counted,if_pos hold] at hu
    exact ih (fun u hu => h u (mem_cons_of_mem _ hu)) hu

/-- Every deep contribution is in a budget that is fixed, so none is added to it at once. -/
theorem grow_unset (h : w.isUnset=true) : w.grow share deep surplus us = first share deep surplus us := by
  have hnone : counted deep (first share deep surplus us).capital us = [] := by
    refine counted_eq_nil fun u hu hdeep => ?_
    exact mem_map_of_mem (mem_filter.mpr ⟨hu,decide_eq_true hdeep⟩)
  rw [grow,if_pos h,foldl_add,hnone]
  simp

theorem grow_set (h : w.isUnset=false) : w.grow share deep surplus us =
      ⟨w.budget+((counted deep w.capital us).map fun u => u.value / share).sum,
        w.capital++(counted deep w.capital us).map (·.outPoint)⟩ := by
  rw [grow,if_neg (by simp [h]),foldl_add]

theorem isUnset_grow (h : w.isUnset=false) : (w.grow share deep surplus us).isUnset = false := by
  rw [grow_set h]
  cases hnew : counted deep w.capital us with
  | nil => simpa using h
  | cons u new => simp [isUnset]

theorem first_le (deep : ℤ) (hshare : 0<share.toInt) (hsurplus : 0 ≤ surplus.toInt)
    (hus : ∀ u∈us, 0 ≤ u.value.toInt) (hfits : exact (us.map (·.value))<2^63) :
    (first share deep surplus us).budget.toInt*share.toInt ≤ surplus.toInt := by
  set shallow := us.filter fun u => 0 < u.confirmations && u.confirmations < deep
  have hshallow : ∀ c∈shallow.map (·.value), 0 ≤ c.toInt := by
    intro c hc
    obtain ⟨u,hu,rfl⟩ := mem_map.mp hc
    exact hus u (mem_of_mem_filter hu)
  have hle : exact (shallow.map (·.value)) ≤ exact (us.map (·.value)) := exact_filter_le hus _
  have htotal : (total (shallow.map (·.value))).toInt = exact (shallow.map (·.value)) :=
    toInt_total hshallow (by omega)
  have hnonneg := exact_nonneg hshallow
  have hhi := surplus.toInt_lt
  have hsub : (surplus-total (shallow.map (·.value))).toInt = surplus.toInt-exact (shallow.map (·.value)) := by
    rw [Int64.toInt_sub,htotal]
    apply Int.bmod_eq_of_le <;> norm_num <;> omega
  have hmax : (max (surplus-total (shallow.map (·.value))) 0).toInt =
      max (surplus.toInt-exact (shallow.map (·.value))) 0 := by rw [toInt_max,hsub]; rfl
  have hdiv := (toInt_div_bounds (a := max (surplus-total (shallow.map (·.value))) 0)
    (by rw [hmax]; exact le_max_right _ _) hshare).2
  refine hdiv.trans ?_
  rw [hmax]
  exact max_le (by omega) hsurplus

theorem grown_le (hshare : 0<share.toInt) {new : List Utxo} (hnew : ∀ u∈new, 0 ≤ u.value.toInt) (budget : Int64) :
    (budget+(new.map fun u => u.value / share).sum).toInt*share.toInt ≤
      budget.toInt*share.toInt+exact (new.map (·.value)) := by
  have hquot : ∀ q∈new.map fun u => u.value / share, 0 ≤ q.toInt := by
    intro q hq
    obtain ⟨u,hu,rfl⟩ := mem_map.mp hq
    exact (toInt_div_bounds (hnew u hu) hshare).1
  have hexact : exact (new.map fun u => u.value / share)*share.toInt ≤ exact (new.map (·.value)) := by
    clear hquot
    induction new with
    | nil => simp
    | cons u new ih =>
      have hu := (toInt_div_bounds (hnew u (mem_cons_self ..)) hshare).2
      have hrest := ih fun w hw => hnew w (mem_cons_of_mem _ hw)
      simp only [map_cons,exact_cons,add_mul]
      omega
  calc (budget+(new.map fun u => u.value / share).sum).toInt*share.toInt
      ≤ (budget.toInt+exact (new.map fun u => u.value / share))*share.toInt :=
        mul_le_mul_of_nonneg_right (toInt_add_sum_le budget hquot) hshare.le
    _ = budget.toInt*share.toInt+exact (new.map fun u => u.value / share)*share.toInt := add_mul ..
    _ ≤ budget.toInt*share.toInt+exact (new.map (·.value)) := by omega

end Budget

/-! ## Every fee the log signed -/

theorem LoggedAction.worst_nonneg (a : LoggedAction) : 0 ≤ a.worst.toInt := foldl_max_nonneg (by decide)

theorem LoggedAction.worst_append (a : LoggedAction) (t : LoggedTx) :
    ({ a with txs := a.txs++[t] } : LoggedAction).worst = max a.worst t.fee := by
  simp [LoggedAction.worst]

/-- A fee that comes out of the surplus: a fence's or a cancellation's. -/
def ActionKey.paysSurplus : ActionKey → Bool
  | .fence _ | .cancel _ => true
  | _ => false

/-- The surplus fees the log ever signed, each action at its costliest. -/
def SigningLog.feeSum (log : SigningLog) : ℤ :=
  exact ((log.actions.entries.filter fun e => e.1.paysSurplus).map fun e => e.2.worst)

namespace SigningLog

variable {log : SigningLog} {key : ActionKey} {fee : Int64}

private theorem fenceFees_eq (log : SigningLog) (key : ActionKey) (fee : Int64) : log.fenceFees key fee =
      let entries := log.actions.entries.filter fun e => e.1.paysSurplus
      let sum := total (entries.map fun e => if e.1 = key then max e.2.worst fee else e.2.worst)
      if entries.any fun e => e.1 = key then sum else sum+fee := rfl

theorem entries_perm_of_lookup {a : LoggedAction} (h : log.actions.lookup key=some a) :
    log.actions.entries.Perm (⟨key,a⟩::log.actions.entries.kerase key) := by
  have hmem := AList.mem_lookup_iff.mp h
  obtain ⟨b,l₁,l₂,hl₁,hl,hkerase⟩ := exists_of_kerase (mem_keys_of_mem hmem)
  have hab : b = a := by
    have hb : (⟨key,b⟩ : Sigma fun _ : ActionKey => LoggedAction)∈log.actions.entries := by
      rw [hl]
      exact mem_append_right _ (mem_cons_self ..)
    exact Option.some.inj ((AList.mem_lookup_iff.mpr hb).symm.trans h)
  rw [hkerase,hl,hab]
  exact perm_middle

theorem ne_of_mem_kerase {e : Sigma fun _ : ActionKey => LoggedAction}
    (h : e∈log.actions.entries.kerase key) : e.1 ≠ key := by
  rintro rfl
  exact notMem_keys_kerase e.1 log.actions.nodupKeys (mem_keys_of_mem h)

def otherFees (log : SigningLog) (key : ActionKey) : ℤ :=
  exact (((log.actions.entries.kerase key).filter fun e => e.1.paysSurplus).map fun e => e.2.worst)

theorem otherFees_nonneg (log : SigningLog) (key : ActionKey) : 0 ≤ log.otherFees key := by
  refine exact_nonneg fun c hc => ?_
  obtain ⟨e,-,rfl⟩ := mem_map.mp hc
  exact e.2.worst_nonneg

private theorem exact_fenceFees (hkey : key.paysSurplus=true) :
    let fees := (log.actions.entries.filter fun e => e.1.paysSurplus).map
      fun e => if e.1 = key then max e.2.worst fee else e.2.worst
    exact fees = log.otherFees key+(log.actions.lookup key).elim 0 fun a => max a.worst.toInt fee.toInt := by
  have hothers : ((log.actions.entries.kerase key).filter fun e => e.1.paysSurplus).map
      (fun e => if e.1 = key then max e.2.worst fee else e.2.worst) =
      ((log.actions.entries.kerase key).filter fun e => e.1.paysSurplus).map fun e => e.2.worst :=
    map_congr_left fun e he => if_neg (ne_of_mem_kerase (mem_of_mem_filter he))
  cases hlookup : log.actions.lookup key with
  | none =>
    have hkerase : log.actions.entries.kerase key = log.actions.entries :=
      kerase_of_notMem_keys (AList.lookup_eq_none.mp hlookup)
    rw [hkerase] at hothers
    simp [otherFees,hkerase,hothers]
  | some a =>
    have hperm := ((entries_perm_of_lookup hlookup).filter fun e => e.1.paysSurplus).map
      fun e => if e.1 = key then max e.2.worst fee else e.2.worst
    dsimp only
    rw [exact_perm hperm,filter_cons,if_pos hkey,map_cons,exact_cons,hothers,if_pos rfl,toInt_max,add_comm]
    rfl

variable [Hashing] {chain : ChainName} {tx : MsgTx} {value : Int64} {now : ℤ}

theorem feeSum_record (hkey : key.paysSurplus=true) (hfee : 0≤fee.toInt) :
    (log.record key chain tx value fee now).feeSum =
      log.otherFees key+(log.actions.lookup key).elim fee.toInt fun a => max a.worst.toInt fee.toInt := by
  have hpaid : (if 0 < fee then fee else 0).toInt = fee.toInt := by
    split
    · rfl
    · next h =>
      rw [pos_iff] at h
      have hzero : fee.toInt = 0 := by omega
      rw [hzero]
      rfl
  have hsum (a : LoggedAction) (hentries : (log.record key chain tx value fee now).actions.entries =
      ⟨key,{ a with txs := a.txs++[⟨tx.txHash,[],tx.spends,some chain,if 0 < fee then fee else 0⟩] }⟩ ::
        log.actions.entries.kerase key) :
      (log.record key chain tx value fee now).feeSum = log.otherFees key+max a.worst.toInt fee.toInt := by
    rw [feeSum,hentries,filter_cons,if_pos hkey,map_cons,exact_cons,LoggedAction.worst_append,
      toInt_max,hpaid,add_comm]
    rfl
  cases hlookup : log.actions.lookup key with
  | none =>
    rw [hsum ⟨value,now,[]⟩ (by rw [record,hlookup]; rfl)]
    exact congrArg _ (max_eq_right hfee)
  | some a => exact hsum a (by rw [record,hlookup]; rfl)

/-- A fee that is recorded is counted as the check before it counted it. -/
theorem toInt_fenceFees (hkey : key.paysSurplus=true) (hfee : 0≤fee.toInt)
    (hfits : (log.record key chain tx value fee now).feeSum<2^63) :
    (log.fenceFees key fee).toInt = (log.record key chain tx value fee now).feeSum := by
  rw [feeSum_record hkey hfee] at hfits ⊢
  have hexact : exact ((log.actions.entries.filter fun e => e.1.paysSurplus).map
      fun e => if e.1 = key then max e.2.worst fee else e.2.worst) = _ := exact_fenceFees hkey
  have hnonneg : ∀ c∈(log.actions.entries.filter fun e => e.1.paysSurplus).map
      (fun e => if e.1 = key then max e.2.worst fee else e.2.worst), 0 ≤ c.toInt := by
    intro c hc
    obtain ⟨e,-,rfl⟩ := mem_map.mp hc
    have hworst := e.2.worst_nonneg
    split
    · rw [toInt_max]
      exact hworst.trans (le_max_left _ _)
    · exact hworst
  have hothers := log.otherFees_nonneg key
  rw [fenceFees_eq]
  dsimp only
  cases hlookup : log.actions.lookup key with
  | none =>
    rw [hlookup] at hexact hfits
    simp only [Option.elim_none,add_zero] at hexact hfits
    have hnotin : ¬ (log.actions.entries.filter fun e => e.1.paysSurplus).any fun e => e.1 = key := by
      rw [any_eq_true]
      rintro ⟨e,he,heq⟩
      have hkeys := AList.lookup_eq_none.mp hlookup
      exact hkeys (of_decide_eq_true heq ▸ mem_keys_of_mem (mem_of_mem_filter he))
    have htotal := toInt_total hnonneg (by omega)
    rw [if_neg hnotin,toInt_add_of_bounds (by omega) (by omega),htotal,hexact]
    rfl
  | some a =>
    rw [hlookup] at hexact hfits
    simp only [Option.elim_some] at hexact hfits
    have hin : (log.actions.entries.filter fun e => e.1.paysSurplus).any fun e => e.1 = key := by
      refine any_eq_true.mpr ⟨⟨key,a⟩,mem_filter.mpr ⟨AList.mem_lookup_iff.mp hlookup,hkey⟩,?_⟩
      exact decide_eq_true rfl
    rw [if_pos hin,toInt_total hnonneg (by omega),hexact]
    rfl

end SigningLog

section

variable [Hashing] {views : Set SignerView} {v : SignerView} {log log' : SigningLog}

/-! ## The life of a log -/

def SigningLog.budget (log : SigningLog) : Budget := ⟨log.fenceBudget,log.fenceCapital⟩

/-- What a budget was fixed from: the surplus, and the contributions that were deep then. -/
structure Fixed where
  surplus : Int64
  capital : List OutPoint

/-- How a log came to its budget: not fixed yet; fixed from a surplus; and from then on each
contribution counted once it is deep. Nothing else changes the budget, not a new cutover and
not a restart. -/
inductive Life (views : Set SignerView) : SigningLog → Option Fixed → List Utxo → Prop where
  | unset {log : SigningLog} (budget : log.budget.isUnset=true) : Life views log none []
  | fixed {log : SigningLog} {v : SignerView} (life : Life views log none []) (view : v∈views)
      (key : ActionKey) (solvent : (v.stateFor log key).audit.solvent=true) {new : Budget}
      (new_eq : new = first v.bridge.share v.state.pegLine.rootDepth
        (v.stateFor log key).audit.surplus v.state.contributions) (isSet : new.isUnset=false) :
      Life views { log with fenceBudget := new.budget,fenceCapital := new.capital }
        (some ⟨(v.stateFor log key).audit.surplus,new.capital⟩) []
  | grown {log : SigningLog} {v : SignerView} {fixed : Fixed} {counted : List Utxo}
      (life : Life views log (some fixed) counted) (view : v∈views) (key : ActionKey) {new : Budget}
      (new_eq : new = log.budget.grow v.bridge.share v.state.pegLine.rootDepth
        (v.stateFor log key).audit.surplus v.state.contributions) :
      Life views { log with fenceBudget := new.budget,fenceCapital := new.capital } (some fixed)
        (counted++Budget.counted v.state.pegLine.rootDepth log.fenceCapital v.state.contributions)
  | kept {log log' : SigningLog} {v : SignerView} {fixed : Option Fixed} {counted : List Utxo}
      (life : Life views log fixed counted) (view : v∈views) (step : LogStep v log log')
      (budget : log'.budget=log.budget) : Life views log' fixed counted
  | reread {log log' : SigningLog} {fixed : Option Fixed} {counted : List Utxo}
      (life : Life views log fixed counted) (reread : log.Reread log') : Life views log' fixed counted

/-- What a view's contributions are: coins with values that add up. -/
structure SignerView.Contributes (v : SignerView) : Prop where
  nonneg : ∀ u∈v.state.contributions, 0 ≤ u.value.toInt
  fits : exact (v.state.contributions.map (·.value)) < 2^63

def Fixed.amount (fixed : Option Fixed) : ℤ := fixed.elim 0 (·.surplus.toInt)

def Fixed.held (fixed : Option Fixed) : List OutPoint := fixed.elim [] (·.capital)

omit [Hashing] in
theorem Budget.eq_of_isUnset {w w' : Budget} (h : w.isUnset=true) (h' : w'.isUnset=true) : w = w' := by
  simp only [isUnset,Bool.and_eq_true,decide_eq_true_eq] at h h'
  obtain ⟨b,c⟩ := w
  obtain ⟨b',c'⟩ := w'
  simp_all

theorem SigningLog.foldl_adoptTx_budget (missing : List (ActionKey × ChainTx)) (log : SigningLog) :
    (missing.foldl (fun log p => log.adoptTx p.1 p.2) log).budget = log.budget := by
  induction missing generalizing log with
  | nil => rfl
  | cons p missing ih => exact ih (log.adoptTx p.1 p.2)

theorem LogStep.budget (h : LogStep v log log') : log'.budget = log.budget ∨
    ∃ key new, (v.stateFor log key).audit.solvent = true ∧
      new = log.budget.grow v.bridge.share v.state.pegLine.rootDepth
        (v.stateFor log key).audit.surplus v.state.contributions ∧
      log' = { log with fenceBudget := new.budget,fenceCapital := new.capital } := by
  cases h with
  | started | fenced | narrowed | learned | recorded | anchored => exact .inl rfl
  | budgeted key new _ solvent new_eq => exact .inr ⟨key,new,solvent,new_eq,rfl⟩
  | adopted hadopted =>
    obtain ⟨missing,anchors,coins,-,rfl⟩ := v.adopted_ok hadopted
    exact .inl (SigningLog.foldl_adoptTx_budget missing log)

omit [Hashing] in
theorem SigningLog.Reread.budget {log log' : SigningLog} (h : log.Reread log') : log'.budget = log.budget :=
  congrArg₂ Budget.mk h.fenceBudget h.fenceCapital

omit [Hashing] in
theorem isUnset_eq_true {w : Budget} (h : w.isUnset=true) : w.budget = 0 ∧ w.capital = [] := by
  simpa only [isUnset,Bool.and_eq_true,decide_eq_true_eq] using h

namespace Life

variable {fixed : Option Fixed} {counted : List Utxo}

theorem isUnset_eq (h : Life views log fixed counted) :
    log.budget.isUnset = fixed.isNone ∧ (fixed = none → counted = []) := by
  induction h with
  | unset budget => exact ⟨budget,fun _ => rfl⟩
  | fixed _ _ _ _ _ isSet => exact ⟨isSet,fun _ => rfl⟩
  | grown _ _ _ new_eq ih =>
    subst new_eq
    exact ⟨isUnset_grow ih.1,fun h => by cases h⟩
  | kept _ _ _ budget ih => exact ⟨budget ▸ ih.1,ih.2⟩
  | reread _ reread ih => exact ⟨reread.budget ▸ ih.1,ih.2⟩

theorem step (h : Life views log fixed counted) (hv : v∈views) (hstep : LogStep v log log') :
    ∃ fixed counted, Life views log' fixed counted := by
  rcases hstep.budget with hkept | ⟨key,new,solvent,new_eq,hlog'⟩
  · exact ⟨fixed,counted,.kept h hv hstep hkept⟩
  · obtain ⟨hset,hnil⟩ := h.isUnset_eq
    cases fixed with
    | some fixed =>
      subst hlog'
      exact ⟨_,_,.grown h hv key new_eq⟩
    | none =>
      obtain rfl := hnil rfl
      cases hnew : new.isUnset with
      | true =>
        -- nothing to fix it from: it stays unset, and will be fixed another time
        have hsame : log'.budget = new := by rw [hlog']; rfl
        exact ⟨none,[],.kept h hv hstep (hsame.trans (eq_of_isUnset hnew hset))⟩
      | false =>
        rw [grow_unset hset] at new_eq
        subst hlog'
        exact ⟨_,_,.fixed h hv key solvent new_eq hnew⟩

/-- The contributions listed are those the budget was fixed with and those counted since, and
none is counted twice. -/
theorem capital (h : Life views log fixed counted) : log.fenceCapital = Fixed.held fixed++counted.map (·.outPoint) ∧
      (counted.map (·.outPoint)).Nodup ∧ ∀ u∈counted, u.outPoint ∉ Fixed.held fixed := by
  induction h with
  | unset budget => exact ⟨(isUnset_eq_true budget).2,nodup_nil,by simp⟩
  | fixed => exact ⟨by simp [Fixed.held], nodup_nil, by simp⟩
  | @grown log v fixed counted life _ key new new_eq ih =>
    obtain ⟨hcapital,hnodup,hheld⟩ := ih
    have hset : log.budget.isUnset = false := life.isUnset_eq.1
    have hnew {u : Utxo} (hu : u∈Budget.counted v.state.pegLine.rootDepth log.fenceCapital
        v.state.contributions) : u.outPoint ∉ Fixed.held (some fixed) ∧ u.outPoint ∉ counted.map (·.outPoint) := by
      have hout := (mem_counted hu).2
      rw [hcapital,mem_append] at hout
      exact not_or.mp hout
    refine ⟨?_,?_,?_⟩
    · rw [new_eq,grow_set hset,map_append,← append_assoc,← hcapital]
      rfl
    · rw [map_append]
      refine hnodup.append (nodup_counted ..) fun op hold hadd => ?_
      obtain ⟨u,hu,rfl⟩ := mem_map.mp hadd
      exact (hnew hu).2 hold
    · intro u hu
      rcases mem_append.mp hu with hu | hu
      · exact hheld u hu
      · exact (hnew hu).1
  | kept _ _ _ budget ih =>
    have hsame := congrArg Budget.capital budget
    exact ⟨hsame.trans ih.1,ih.2⟩
  | reread _ reread ih => exact ⟨reread.fenceCapital.trans ih.1,ih.2⟩

theorem budget_le {share : ℤ} (hpos : 0<share) (hshare : ∀ v∈views, v.bridge.share.toInt = share)
    (hviews : ∀ v∈views, v.Contributes) (h : Life views log fixed counted) :
    log.fenceBudget.toInt*share ≤ Fixed.amount fixed+exact (counted.map (·.value)) := by
  induction h with
  | @unset log budget =>
    have hzero : log.fenceBudget = 0 := (isUnset_eq_true budget).1
    simp [hzero,Fixed.amount]
  | @fixed log v _ view key solvent new new_eq isSet =>
    have hsurplus : 0 ≤ (v.stateFor log key).audit.surplus.toInt := by
      simp only [Audit.solvent,Bool.and_eq_true,decide_eq_true_eq] at solvent
      exact nonneg_iff.mp solvent.1
    have hfirst := first_le v.state.pegLine.rootDepth ((hshare v view).symm ▸ hpos) hsurplus
      (hviews v view).nonneg (hviews v view).fits
    rw [hshare v view] at hfirst
    simpa [Fixed.amount,new_eq] using hfirst
  | @grown log v fixed counted life view key new new_eq ih =>
    have hset : log.budget.isUnset = false := life.isUnset_eq.1
    have hvalues : ∀ u∈Budget.counted v.state.pegLine.rootDepth log.fenceCapital v.state.contributions,
        0 ≤ u.value.toInt := fun u hu => (hviews v view).nonneg u (Budget.mem_counted hu).1
    have hgrown := grown_le ((hshare v view).symm ▸ hpos) hvalues log.fenceBudget
    rw [hshare v view] at hgrown
    rw [map_append,exact_append,new_eq,grow_set hset]
    exact hgrown.trans (by omega)
  | kept _ _ _ budget ih =>
    have hsame := congrArg Budget.budget budget
    exact (congrArg (fun b : Int64 => b.toInt*share) hsame).trans_le ih
  | reread _ reread ih => rw [reread.fenceBudget]; exact ih

end Life

theorem exists_life {st st' : Signer} (hrun : ReflTransGen (SignerStep views) st st')
    (hlog : ∃ fixed counted, Life views st.log fixed counted)
    (hfiles : ∀ file∈st.files, ∃ fixed counted, Life views file fixed counted) :
    (∃ fixed counted, Life views st'.log fixed counted) ∧
      ∀ file∈st'.files, ∃ fixed counted, Life views file fixed counted := by
  induction hrun with
  | refl => exact ⟨hlog,hfiles⟩
  | tail _ hstep ih =>
    cases hstep with
    | @command v hv command =>
      have hkeeps (a b : SigningLog) (hs : LogStep v a b) :
          (∃ fixed counted, Life views a fixed counted) → ∃ fixed counted, Life views b fixed counted :=
        fun ⟨_,_,life⟩ => life.step hv hs
      have hran := v.run_ran command
      exact ⟨(hran _).keeps_log hkeeps ih.1,(hran _).keeps_files hkeeps ih.1 ih.2⟩
    | restart restarts =>
      obtain ⟨file,hfile,hreread⟩ := restarts.reread
      obtain ⟨fixed,counted,life⟩ := ih.2 file hfile
      exact ⟨⟨fixed,counted,life.reread hreread⟩,fun file hfile => ih.2 file (restarts.files file hfile)⟩

/-! ## The bound -/

variable {fee : Int64} {draft : Draft} {req : SignRequest}

theorem cutoverBudgetRoom_ok {s : PegState} {key : ActionKey} {st st' : Signer}
    (h : cutoverBudgetRoom v s key fee st=(.ok (),st')) (hepoch : st'.log.cutoverEpoch≠0) :
    st'.log.fenceFees key fee ≤ st'.log.fenceBudget := by
  unfold cutoverBudgetRoom at h
  split at h
  · next hzero =>
    cases h
    exact absurd hzero hepoch
  · simp only [Stage.bind_ok,Stage.reads_ok,ensure_eq_ok,decide_eq_true_eq] at h
    obtain ⟨_,_,-,_,_,-,hle,rfl⟩ := h
    exact hle

theorem Drafted.paysSurplus {s : PegState} {action : Action}
    (hdraft : v.Drafted req log s draft action) (hfee : draft.surplusFee=some fee) :
    action.key.paysSurplus = true := by
  cases hdraft with
  | release h => rw [h.surplusFee] at hfee; cases hfee
  | cancel | fence => rfl
  | payout _ h => rw [h.surplusFee] at hfee; cases hfee
  | refund _ h => rw [h.surplusFee] at hfee; cases hfee

theorem feeSum_le {st : Signer}
    (hcheck : v.check req st=(.ok draft,(v.check req st).2)) (hfee : draft.surplusFee=some fee)
    (hpos : 0≤fee) (hepoch : (v.check req st).2.log.cutoverEpoch≠0) :
    let log := (v.check req st).2.log.record req.action.key draft.chain req.tx draft.value fee v.unix
    log.feeSum < 2^63 → log.feeSum ≤ log.fenceBudget.toInt := by
  intro log hfits
  obtain ⟨gated,learnt,happroves⟩ := SignerView.check_ok hcheck
  have hkey := Drafted.paysSurplus (SignerView.draft_ok happroves.drafted).2 hfee
  have hbudget := happroves.budget
  rw [SignerView.budgetRoom,hfee] at hbudget
  have hle := cutoverBudgetRoom_ok hbudget hepoch
  rw [Int64.le_iff_toInt_le,SigningLog.toInt_fenceFees hkey (nonneg_iff.mp hpos) hfits] at hle
  exact hle

omit [Hashing] in
theorem toInt_share {n t : ℕ} {b : Bridge} (hkeys : b.keys=n) (hrequired : b.required=t) (ht : 1≤t)
    (htn : t≤n) (hn : n<2^63) : b.share.toInt = n-t+1 := by
  rw [Bridge.share,hkeys,hrequired,max_eq_left (by omega)]
  exact toInt_ofInt_of_nonneg (by omega) (by omega)

/-- Whatever a signer that has been in a cutover goes through, after each surplus fee it signs
the fees it ever signed are within its budget, and the budget within a share of the surplus
it was fixed from and of each contribution counted since, once. -/
theorem lifetime_budget {n t : ℕ} (ht : 1≤t) (htn : t≤n) (hn : n<2^63)
    (hkeys : ∀ v∈views, v.bridge.keys = n ∧ v.bridge.required = t)
    (hviews : ∀ v∈views, v.Contributes) {st₀ st : Signer} (hlog : st₀.log.budget.isUnset=true)
    (hfiles : ∀ file∈st₀.files, file.budget.isUnset = true)
    (hrun : ReflTransGen (SignerStep views) st₀ st) (hv : v∈views) {req : SignRequest} {draft : Draft}
    (hsign : (v.handleSign req st).1 = .ok draft) {fee : Int64} (hfee : draft.surplusFee=some fee) (hpos : 0≤fee) :
    let log := (v.handleSign req st).2.log
    0 < log.cutoverEpoch → log.feeSum < 2^63 → log.feeSum ≤ log.fenceBudget.toInt ∧
      ∃ fixed counted, Life views log fixed counted ∧
        log.fenceBudget.toInt*(n-t+1) ≤ Fixed.amount fixed+exact (counted.map (·.value)) ∧
        log.fenceCapital = Fixed.held fixed++counted.map (·.outPoint) ∧
        (counted.map (·.outPoint)).Nodup ∧ ∀ u∈counted, u.outPoint ∉ Fixed.held fixed := by
  intro log hepoch hfits
  have hlast : SignerStep views st (v.run (.sign req) st) := .command hv (.sign req)
  obtain ⟨⟨fixed,counted,life⟩,-⟩ := exists_life (hrun.tail hlast) ⟨_,_,.unset hlog⟩
    fun file hfile => ⟨_,_,.unset (hfiles file hfile)⟩
  refine ⟨?_,fixed,counted,life,life.budget_le (by omega)
    (fun v hv => toInt_share (hkeys v hv).1 (hkeys v hv).2 ht htn hn) hviews,life.capital⟩
  rcases SignerView.handleSign_cases v req st with ⟨e,-,herror⟩ | ⟨d,hcheck,hrecord,hok⟩
  · rw [herror] at hsign
    cases hsign
  · obtain ⟨rfl,-⟩ := hok draft hsign
    have hlog' : log = _ := hrecord
    rw [hfee,Option.getD_some] at hlog'
    rw [hlog'] at hfits hepoch ⊢
    exact feeSum_le hcheck hfee hpos hepoch.ne' hfits

end

section Sample

attribute [local instance] sampleHashing

/-- A fee so high that two of them are more than an `int64` holds. -/
def dearBridge : Bridge := { sampleBridge with vmFee := 4700000000000000000 }

/-- A reserve of six blocks' coins, and five contributions of operating capital, each as large as a
transaction may be. -/
def dearFunds (n : UInt8) : MsgTx :=
  ⟨1,[⟨⟨0,0xffffffff⟩,[n],[],0⟩],[⟨900000000000000000,sampleBridge.script⟩],0,one_le_maxTxOut⟩

def dearCapital (index : UInt32) : MsgTx :=
  ⟨1,[sampleInput ⟨9,index⟩],[⟨1000000000000000000,sampleBridge.script⟩,nullData Tag.contrib.bytes],0,
    by decide⟩

/-- Deposits of 50 that are to be cancelled. -/
def dearDeposit (index : UInt32) : MsgTx :=
  { sampleDeposit with txIn := [sampleInput ⟨7,index⟩] }

def dearHistory : History where
  vm := ⟨[0,1,2,3,4,5].map fun n => ⟨dearFunds n,9,0⟩, by decide +kernel, by decide +kernel⟩
  doge := ⟨([0,1,2,3,4].map fun i => ⟨dearCapital i,8,0⟩)++[⟨dearDeposit 0,8,0⟩,⟨dearDeposit 1,8,0⟩],
    by decide +kernel, by decide +kernel⟩
  dogeConflicted := []

def dearView : SignerView := sampleView dearBridge dearHistory

def dearLog : SigningLog :=
  ⟨∅,fun _ => some ((dearFunds 0).outPoint 0), .fenced, fun _ => none, 1, 0, 0, []⟩

def dearSigner : Signer := ⟨dearLog,[dearLog],false⟩

def dearCoins : List Utxo :=
  [0,1,2,3,4,5].map fun n => ⟨(dearFunds n).outPoint 0,900000000000000000,sampleBridge.script,9⟩

def dearCancel (index : UInt32) : MsgTx :=
  newTx txVersion maxTxInSequenceNum dearCoins ⟨700000000000000000,sampleBridge.script⟩ none
    (encodeCancel ((dearDeposit index).outPoint 0))

def dearRequest (index : UInt32) : SignRequest :=
  ⟨some .dogecoinVM,.cancel ((dearDeposit index).outPoint 0),dearCancel index,0⟩

def dearOnce : Signer := (dearView.handleSign (dearRequest 0) dearSigner).2

def dearTwice : Signer := (dearView.handleSign (dearRequest 1) dearOnce).2

theorem dearOnce_signed : ((dearView.handleSign (dearRequest 0) dearSigner).1.toOption.bind (·.surplusFee)) =
      some 4700000000000000000 := by decide +kernel

/-- The sum of two fees wraps, so both are signed, and together they are more than the budget. -/
theorem dearFees_exceed_budget : dearSigner.log.budget.isUnset = true ∧ dearSigner.files = [dearSigner.log] ∧
      ((dearView.handleSign (dearRequest 0) dearSigner).1.toOption.bind (·.surplusFee)) = some 4700000000000000000 ∧
      ((dearView.handleSign (dearRequest 1) dearOnce).1.toOption.bind (·.surplusFee)) = some 4700000000000000000 ∧
      dearTwice.log.cutoverEpoch = 1 ∧ dearTwice.log.fenceBudget.toInt = 5000000000000000000 ∧
      dearTwice.log.feeSum = 9400000000000000000 := by
  refine ⟨rfl,rfl,dearOnce_signed,?_,?_,?_,?_⟩
  all_goals decide +kernel

theorem dearOnce_within_budget :
    dearOnce.log.feeSum = 4700000000000000000 ∧ dearOnce.log.feeSum ≤ dearOnce.log.fenceBudget.toInt ∧
      ∃ fixed counted, Life {dearView} dearOnce.log fixed counted ∧
        dearOnce.log.fenceBudget.toInt ≤ Fixed.amount fixed+exact (counted.map (·.value)) := by
  have hsum : dearOnce.log.feeSum = 4700000000000000000 := by decide +kernel
  have hcontributes : dearView.Contributes := ⟨by decide +kernel, by decide +kernel⟩
  obtain ⟨draft,hdraft,hfee⟩ := Option.bind_eq_some_iff.mp dearOnce_signed
  have hsign : (dearView.handleSign (dearRequest 0) dearSigner).1 = .ok draft := by
    cases hres : (dearView.handleSign (dearRequest 0) dearSigner).1 with
    | ok d => rw [hres] at hdraft; exact congrArg Except.ok (Option.some.inj hdraft)
    | error e => rw [hres] at hdraft; cases hdraft
  have hepoch : 0 < dearOnce.log.cutoverEpoch := by decide +kernel
  have hfits : dearOnce.log.feeSum < 2^63 := by rw [hsum]; norm_num
  have hrun : ReflTransGen (SignerStep {dearView}) dearSigner dearSigner := .refl
  have hfiles : ∀ file∈dearSigner.files, file.budget.isUnset = true := by
    intro file hfile
    rw [mem_singleton.mp hfile]
    rfl
  rw [dearOnce] at hsum hepoch hfits ⊢
  obtain ⟨hwithin,fixed,counted,life,hle,-⟩ := lifetime_budget (le_refl 1) (le_refl 1) (by norm_num)
    (by rintro v rfl; exact ⟨rfl,rfl⟩) (by rintro v rfl; exact hcontributes) rfl hfiles hrun rfl hsign hfee
    (by decide) hepoch hfits
  exact ⟨hsum,hwithin,fixed,counted,life,by simpa using hle⟩

end Sample

end DogePeg
