import DogePeg.Lib.Bytes
import DogePeg.Lib.Checks

/-!
# Reading bytes one piece after the other

A reader takes what it needs from the front of a list of bytes and fails where they end. `Parses`
says that a reader gets a value back from the bytes that were written for it, whatever follows
them, and `Yields` says something of every value a reader gets. Both compose as the readers do.
-/

namespace DogePeg.Readers

open Bytes Checks List

variable {ε α β σ : Type}

abbrev Reader (ε α : Type) : Type := StateT (List UInt8) (Except ε) α

def takeBytes (n : ℕ) (e : ε) : Reader ε (List UInt8) := fun bytes =>
  if n ≤ bytes.length then .ok (bytes.take n,bytes.drop n) else .error e

def many (r : Reader ε α) : ℕ → Reader ε (List α)
  | 0 => pure []
  | n+1 => do
    let a ← r
    let rest ← many r n
    return a::rest

/-- The same reader `n` times, with what each round leaves to the next. -/
def manyWith (r : σ → Reader ε (α × σ)) : ℕ → σ → Reader ε (List α × σ)
  | 0, s => pure ([],s)
  | n+1, s => do
    let (a,s) ← r s
    let (rest,s) ← manyWith r n s
    return (a::rest,s)

def demand (ok : Bool) (e : ε) : Reader ε Unit := fun bytes => if ok then .ok ((),bytes) else .error e

/-- The number in the next `n` bytes, the least significant first. -/
def littleEndian (n : ℕ) (e : ε) : Reader ε ℕ := do
  let bytes ← takeBytes n e
  return ofBytes bytes.reverse

def leBytes (n v : ℕ) : List UInt8 := (toBytes n v).reverse

@[simp] theorem length_leBytes (n v : ℕ) : (leBytes n v).length = n := by
  rw [leBytes,length_reverse,length_toBytes]

/-- The reader gets `a` from the bytes, whatever follows them. -/
def Parses (r : Reader ε α) (bytes : List UInt8) (a : α) : Prop :=
  ∀ rest, r.run (bytes++rest) = .ok (a,rest)

theorem Parses.pure (a : α) : Parses (Pure.pure a : Reader ε α) [] a := fun _ => rfl

variable {r : Reader ε α} {R : σ → α → σ → Prop} {P : α → Prop}

theorem Parses.bind {f : α → Reader ε β} {front back : List UInt8} {a : α} {b : β}
    (hr : Parses r front a) (hf : Parses (f a) back b) : Parses (r >>= f) (front++back) b := by
  intro rest
  rw [StateT.run_bind,append_assoc,hr]
  exact hf rest

theorem Parses.map {f : α → β} {bytes : List UInt8} {a : α} (h : Parses r bytes a) :
    Parses (r >>= fun a => Pure.pure (f a)) bytes (f a) := by
  intro rest
  rw [StateT.run_bind,h]
  rfl

theorem Parses.takeBytes (bytes : List UInt8) (e : ε) : Parses (takeBytes bytes.length e) bytes bytes := by
  intro rest
  change (if bytes.length ≤ (bytes++rest).length then _ else _) = _
  rw [if_pos (by simp),take_left,drop_left]

theorem Parses.littleEndian {n v : ℕ} (h : v<256^n) (e : ε) : Parses (littleEndian n e) (leBytes n v) v := by
  have hread : Parses (Readers.littleEndian n e) (leBytes n v) (ofBytes (leBytes n v).reverse) := by
    have htake := (Parses.takeBytes (leBytes n v) e).map (f := fun bytes => ofBytes bytes.reverse)
    rwa [length_leBytes] at htake
  rwa [leBytes,reverse_reverse,ofBytes_toBytes,Nat.mod_eq_of_lt h] at hread

theorem Parses.byte (b : UInt8) (e : ε) : Parses (Readers.littleEndian 1 e) [b] b.toNat := by
  have hread : Parses (Readers.littleEndian 1 e) (leBytes 1 b.toNat) b.toNat :=
    Parses.littleEndian (show b.toNat < 256^1 from b.toNat_lt) e
  have hbytes : leBytes 1 b.toNat = [b] := by simp [leBytes,toBytes]
  rwa [hbytes] at hread

theorem Parses.many {write : β → List UInt8} {read : β → α} {l : List β}
    (h : ∀ b∈l, Parses r (write b) (read b)) : Parses (many r l.length) (l.flatMap write) (l.map read) := by
  induction l with
  | nil => exact Parses.pure []
  | cons b l ih =>
    rw [flatMap_cons]
    exact (h b (mem_cons_self ..)).bind ((ih fun c hc => h c (mem_cons_of_mem _ hc)).map)

theorem Parses.demand {ok : Bool} (h : ok=true) (e : ε) : Parses (demand ok e) [] () := by
  intro rest
  rw [h]
  rfl

/-- Rounds that lead from one state to another, one for each element of a list. -/
inductive Rounds (R : σ → α → σ → Prop) : σ → List α → σ → Prop
  | nil (s : σ) : Rounds R s [] s
  | cons {s t u : σ} {a : α} {l : List α} (first : R s a t) (rest : Rounds R t l u) : Rounds R s (a::l) u

theorem Parses.manyWith {r : σ → Reader ε (α × σ)} {write : α → List UInt8} {read : α → α}
    (h : ∀ s a t, R s a t → Parses (r s) (write a) (read a,t)) {s t : σ} {l : List α} (hl : Rounds R s l t) :
    Parses (manyWith r l.length s) (l.flatMap write) (l.map read,t) := by
  induction hl with
  | nil s => exact Parses.pure ([],s)
  | cons first _ ih =>
    rw [flatMap_cons]
    exact (h _ _ _ first).bind ih.map

/-- What holds of every value the reader gets. -/
def Yields (r : Reader ε α) (P : α → Prop) : Prop := ∀ bytes a rest, r.run bytes = .ok (a,rest) → P a

theorem Yields.pure {a : α} (h : P a) : Yields (Pure.pure a : Reader ε α) P := by
  intro bytes b rest hrun
  rw [StateT.run_pure,pure_eq_ok] at hrun
  cases hrun
  exact h

theorem Yields.bind {f : α → Reader ε β} {Q : β → Prop} (hr : Yields r P)
    (hf : ∀ a, P a → Yields (f a) Q) : Yields (r >>= f) Q := by
  intro bytes b rest hrun
  rw [StateT.run_bind,bind_eq_ok] at hrun
  obtain ⟨⟨a,left⟩,ha,hb⟩ := hrun
  exact hf a (hr bytes a left ha) left b rest hb

theorem Yields.trivial (r : Reader ε α) : Yields r fun _ => True := fun _ _ _ _ => True.intro

theorem Yields.mono {P Q : α → Prop} (h : Yields r P) (hPQ : ∀ a, P a → Q a) : Yields r Q :=
  fun bytes a rest hrun => hPQ a (h bytes a rest hrun)

theorem Yields.takeBytes (n : ℕ) (e : ε) : Yields (takeBytes n e) fun bytes => bytes.length = n := by
  intro bytes a rest hrun
  change (if n ≤ bytes.length then _ else _) = _ at hrun
  split_ifs at hrun with hle
  cases hrun
  exact length_take_of_le hle

theorem Yields.demand (ok : Bool) (e : ε) : Yields (demand ok e) fun _ => ok = true := by
  intro bytes a rest hrun
  change (if ok = true then _ else _) = _ at hrun
  split_ifs at hrun with hok
  exact hok

theorem Yields.many (h : Yields r P) (n : ℕ) : Yields (many r n) fun l => ∀ a∈l, P a := by
  induction n with
  | zero => exact Yields.pure (forall_mem_nil P)
  | succ n ih => exact h.bind fun a ha => ih.bind fun l hl => Yields.pure (forall_mem_cons.mpr ⟨ha,hl⟩)

theorem Yields.manyWith {r : σ → Reader ε (α × σ)} (h : ∀ s, Yields (r s) fun p => R s p.1 p.2) (n : ℕ) (s : σ) :
    Yields (manyWith r n s) fun p => Rounds R s p.1 p.2 ∧ p.1.length = n := by
  induction n generalizing s with
  | zero => exact Yields.pure ⟨.nil s,rfl⟩
  | succ n ih =>
    exact (h s).bind fun p hp => (ih p.2).bind fun q hq => Yields.pure ⟨.cons hp hq.1,congrArg (· + 1) hq.2⟩

end DogePeg.Readers
