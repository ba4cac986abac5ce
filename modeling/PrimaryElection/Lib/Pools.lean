import PrimaryElection.Lib.Outcome

/-! Programs that take from pools and give back to them. A pool counts what is out; a
program is the trace of its operations and how it ends. Counts are additive over traces,
so it makes no difference to them how the traces of several programs interleave. -/

namespace PrimaryElection.Pools

open Encoder (Outcome)

variable {P α β : Type}

inductive Op (P : Type) where
  | get (p : P)
  | put (p : P)
  deriving DecidableEq

section

variable [DecidableEq P]

def Op.change (q : P) : Op P → ℤ
  | .get p => if p = q then 1 else 0
  | .put p => -(if p = q then 1 else 0)

def usage (u : P → ℤ) (ops : List (Op P)) : P → ℤ := ops.foldl (fun u o q => u q + o.change q) u

/-- What is still out of a pool after a trace. -/
def balance (ops : List (Op P)) (q : P) : ℤ := (ops.map (Op.change q)).sum

theorem usage_apply (u : P → ℤ) (ops : List (Op P)) (q : P) :
    usage u ops q = u q + balance ops q := by
  induction ops generalizing u with
  | nil => simp [usage, balance]
  | cons o ops ih =>
    have hstep : usage u (o :: ops) = usage (fun q => u q + o.change q) ops := rfl
    rw [hstep, ih, balance, balance, List.map_cons, List.sum_cons, add_assoc]

@[simp] theorem balance_nil (q : P) : balance [] q = 0 := rfl

@[simp] theorem balance_cons (o : Op P) (ops : List (Op P)) (q : P) :
    balance (o :: ops) q = o.change q + balance ops q := by
  rw [balance, List.map_cons, List.sum_cons, balance]

theorem balance_append (ops ops' : List (Op P)) (q : P) :
    balance (ops ++ ops') q = balance ops q + balance ops' q := by
  rw [balance, List.map_append, List.sum_append, balance, balance]

theorem balance_perm {ops ops' : List (Op P)} (h : ops.Perm ops') (q : P) :
    balance ops q = balance ops' q := (h.map _).sum_eq

theorem balance_flatMap {ρ : Type} (f : ρ → List (Op P)) (rs : List ρ) (q : P) :
    balance (rs.flatMap f) q = (rs.map fun r => balance (f r) q).sum := by
  induction rs with
  | nil => rfl
  | cons r rs ih => rw [List.flatMap_cons, balance_append, ih, List.map_cons, List.sum_cons]

/-- Where no trace gives back more than it has taken, the counts are unchanged exactly
when each trace has given back everything. -/
theorem usage_unchanged_iff {ρ : Type} {f : ρ → List (Op P)} {rs : List ρ} {ops : List (Op P)}
    (hperm : ops.Perm (rs.flatMap f)) (hnonneg : ∀ r ∈ rs, ∀ q, 0 ≤ balance (f r) q) (u : P → ℤ) :
    usage u ops = u ↔ ∀ r ∈ rs, ∀ q, balance (f r) q = 0 := by
  have hsum (q : P) : usage u ops q = u q + (rs.map fun r => balance (f r) q).sum := by
    rw [usage_apply, balance_perm hperm, balance_flatMap]
  constructor
  · intro h r hr q
    have hzero : (rs.map fun r => balance (f r) q).sum = 0 := by
      have := hsum q
      rw [h] at this
      omega
    have hle : balance (f r) q ≤ (rs.map fun r => balance (f r) q).sum :=
      List.single_le_sum (by simpa using fun r hr => hnonneg r hr q) _
        (List.mem_map_of_mem hr)
    have := hnonneg r hr q
    omega
  · intro h
    funext q
    have hzero : (rs.map fun r => balance (f r) q).sum = 0 := by
      refine List.sum_eq_zero fun x hx => ?_
      obtain ⟨r, hr, rfl⟩ := List.mem_map.mp hx
      exact h r hr q
    rw [hsum, hzero, add_zero]

end

/-! ### Programs -/

/-- The operations of a program, and how it ends: a value for what follows, a code that
it returns, or a fault. -/
structure Program (P α : Type) where
  ops : List (Op P)
  out : Outcome α

namespace Program

protected def bind (x : Program P α) (f : α → Program P β) : Program P β :=
  match x.out with
  | .ok a => ⟨x.ops ++ (f a).ops, (f a).out⟩
  | .code c => ⟨x.ops, .code c⟩
  | .fault => ⟨x.ops, .fault⟩

instance : Monad (Program P) where
  pure a := ⟨[], .ok a⟩
  bind := Program.bind

theorem bind_def (x : Program P α) (f : α → Program P β) : x >>= f = x.bind f := rfl

instance : LawfulMonad (Program P) := LawfulMonad.mk' (Program P)
  (fun x => by
    obtain ⟨ops, out⟩ := x
    cases out <;> simp [Functor.map, Program.bind])
  (fun a f => by simp [bind_def, pure, Program.bind])
  (fun x f g => by
    obtain ⟨ops, out⟩ := x
    cases out with
    | ok a =>
      cases hf : (f a).out <;> simp [bind_def, Program.bind, hf, List.append_assoc]
    | code c => rfl
    | fault => rfl)

def get (p : P) : Program P Unit := ⟨[.get p], .ok ()⟩

def put (p : P) : Program P Unit := ⟨[.put p], .ok ()⟩

def exit (c : ℤ) : Program P α := ⟨[], .code c⟩

/-- An assertion that fails, or an access outside its buffer. -/
def abort : Program P α := ⟨[], .fault⟩

theorem out_bind {x : Program P α} {a : α} (h : x.out = .ok a) (f : α → Program P β) :
    (x >>= f).out = (f a).out := by rw [bind_def, Program.bind, h]

theorem out_get_bind (p : P) (f : Unit → Program P α) : (get p >>= f).out = (f ()).out := rfl

def Finished (x : Program P α) : Prop := x.out ≠ .fault

/-! ### Rules for what a program keeps -/

variable [DecidableEq P]

/-- If the program returns, it keeps `b` of the pools. -/
def Keeps (x : Program P α) (b : P → ℤ) : Prop := x.Finished → ∀ q, balance x.ops q = b q

variable {b : P → ℤ}

theorem Keeps.congr {x : Program P α} {b b' : P → ℤ} (h : Keeps x b) (hb : ∀ q, b q = b' q) :
    Keeps x b' := fun hfin q => (h hfin q).trans (hb q)

theorem keeps_exit {c : ℤ} (h : ∀ q, b q = 0) : Keeps (exit c : Program P α) b := fun _ q => (h q).symm

theorem keeps_abort : Keeps (abort : Program P α) b := fun h => absurd rfl h

theorem keeps_get {p : P} {f : Unit → Program P α}
    (h : Keeps (f ()) fun q => b q - if p = q then 1 else 0) : Keeps (get p >>= f) b := by
  intro hfin q
  have hrest := h hfin q
  have hops : (get p >>= f).ops = .get p :: (f ()).ops := rfl
  rw [hops, balance_cons, hrest, Op.change]
  ring

theorem keeps_put {p : P} {f : Unit → Program P α}
    (h : Keeps (f ()) fun q => b q + if p = q then 1 else 0) : Keeps (put p >>= f) b := by
  intro hfin q
  have hrest := h hfin q
  have hops : (put p >>= f).ops = .put p :: (f ()).ops := rfl
  rw [hops, balance_cons, hrest, Op.change]
  ring

end Program

end PrimaryElection.Pools
