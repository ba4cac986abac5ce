import Mathlib.Tactic

/-! How a parser ends: with a value, by returning a code, or in a fault, the use of
a value that is absent. The rules compute the exact condition under which a parser
is free of faults, or ends with a value, from that of what follows each of its steps. -/

namespace PrimaryElection.Encoder

/-- How a piece of an encoder ends. -/
inductive Outcome (α : Type) where
  | ok (a : α)
  | code (c : ℤ)
  | fault
  deriving DecidableEq

namespace Outcome

variable {α β γ : Type}

/-- A code or a fault ends the whole. -/
protected def bind (o : Outcome α) (f : α → Outcome β) : Outcome β :=
  match o with
  | .ok a => f a
  | .code c => .code c
  | .fault => .fault

instance : Monad Outcome where
  pure := .ok
  bind := Outcome.bind

instance : LawfulMonad Outcome :=
  LawfulMonad.mk' Outcome (fun o => by cases o <;> rfl) (fun _ _ => rfl)
    (fun o f g => by cases o <;> rfl)

/-- Return `missing` if there is no value. -/
def require (o : Option α) (missing : ℤ) : Outcome α := o.elim (.code missing) .ok

/-- Use a value without a check. -/
def use (o : Option α) : Outcome α := o.elim .fault .ok

theorem bind_eq_ok_iff {o : Outcome α} {f : α → Outcome β} {b : β} :
    o >>= f = .ok b ↔ ∃ a, o = .ok a ∧ f a = .ok b := by
  cases o with
  | ok a =>
    constructor
    · intro h; exact ⟨a, rfl, h⟩
    · rintro ⟨a', ha, h⟩; cases ha; exact h
  | code c => exact ⟨fun h => (nomatch h), fun ⟨_, h, _⟩ => (nomatch h)⟩
  | fault => exact ⟨fun h => (nomatch h), fun ⟨_, h, _⟩ => (nomatch h)⟩

/-! ### Absence of faults -/

/-- The condition `P` is exact for the absence of a fault. -/
def Faultless (o : Outcome α) (P : Prop) : Prop := o ≠ .fault ↔ P

theorem Faultless.congr {o : Outcome α} {P Q : Prop} (h : Faultless o P) (hpq : P ↔ Q) :
    Faultless o Q := h.trans hpq

variable {g : α → Outcome β}

theorem faultless_pure (a : α) : Faultless (pure a) True :=
  iff_true_intro fun h => nomatch h

theorem faultless_code (c : ℤ) : Faultless (code c : Outcome α) True :=
  iff_true_intro fun h => nomatch h

theorem faultless_map {f : α → β} {o : Outcome α} {P : Prop} :
    Faultless (f <$> o) P ↔ Faultless o P := by
  cases o <;> exact iff_congr (by simp [Functor.map, Outcome.bind]) Iff.rfl

theorem faultless_require {o : Option α} {missing : ℤ} {P : α → Prop}
    (hg : ∀ a, Faultless (g a) (P a)) :
    Faultless (require o missing >>= g) (∀ a, o = some a → P a) := by
  cases o with
  | none => exact iff_of_true (fun h => nomatch h) (fun a h => nomatch h)
  | some a =>
    refine (hg a).trans ⟨fun h b hb => ?_, fun h => h a rfl⟩
    exact Option.some.inj hb ▸ h

theorem faultless_use {o : Option α} {P : α → Prop} (hg : ∀ a, Faultless (g a) (P a)) :
    Faultless (use o >>= g) (∃ a, o = some a ∧ P a) := by
  cases o with
  | none => exact iff_of_false (fun h => h rfl) (fun ⟨_, h, _⟩ => nomatch h)
  | some a =>
    refine (hg a).trans ⟨fun h => ⟨a, rfl, h⟩, fun ⟨b, hb, h⟩ => ?_⟩
    exact (Option.some.inj hb).symm ▸ h

/-- The condition under which a loop and what follows it are free of faults, from
the condition of one step and what follows that. -/
def forEachCond (cond : α → Prop → Prop) : List α → Prop → Prop
  | [], P => P
  | x :: xs, P => cond x (forEachCond cond xs P)

theorem forEachCond_and (p : α → Prop) (xs : List α) (P : Prop) :
    forEachCond (fun x Q => p x ∧ Q) xs P ↔ (∀ x ∈ xs, p x) ∧ P := by
  induction xs with
  | nil => simp [forEachCond]
  | cons x xs ih => simp only [forEachCond, ih, List.forall_mem_cons, and_assoc]

/-- A loop that collects values; what follows may rely on their number. -/
theorem faultless_mapM {f : α → Outcome β} {cond : α → Prop → Prop}
    (hf : ∀ x (g : β → Outcome γ) P, (∀ b, Faultless (g b) P) → Faultless (f x >>= g) (cond x P))
    (xs : List α) {g : List β → Outcome γ} {P : Prop}
    (hg : ∀ bs, bs.length = xs.length → Faultless (g bs) P) :
    Faultless (xs.mapM f >>= g) (forEachCond cond xs P) := by
  induction xs generalizing g with
  | nil => exact hg [] rfl
  | cons x xs ih =>
    have h : (x :: xs).mapM f >>= g = f x >>= fun b => xs.mapM f >>= fun bs => g (b :: bs) := by
      rw [List.mapM_cons]
      simp only [bind_assoc, pure_bind]
    rw [h]
    refine hf x _ _ fun b => ih fun bs hbs => hg (b :: bs) ?_
    simp [hbs]

/-! ### Acceptance -/

/-- The condition `P` is exact for ending with a value. -/
def Accepts (o : Outcome α) (P : Prop) : Prop := (∃ a, o = .ok a) ↔ P

theorem Accepts.congr {o : Outcome α} {P Q : Prop} (h : Accepts o P) (hpq : P ↔ Q) :
    Accepts o Q := h.trans hpq

theorem accepts_pure (a : α) : Accepts (pure a) True := iff_true_intro ⟨a, rfl⟩

theorem accepts_code (c : ℤ) : Accepts (code c : Outcome α) False :=
  iff_false_intro fun ⟨_, h⟩ => nomatch h

theorem accepts_require {o : Option α} {missing : ℤ} {P : α → Prop}
    (hg : ∀ a, Accepts (g a) (P a)) : Accepts (require o missing >>= g) (∃ a, o = some a ∧ P a) := by
  cases o with
  | none => exact iff_of_false (fun ⟨_, h⟩ => nomatch h) (fun ⟨_, h, _⟩ => nomatch h)
  | some a => exact (hg a).trans (by simp)

theorem accepts_use {o : Option α} {P : α → Prop} (hg : ∀ a, Accepts (g a) (P a)) :
    Accepts (use o >>= g) (∃ a, o = some a ∧ P a) := by
  cases o with
  | none => exact iff_of_false (fun ⟨_, h⟩ => nomatch h) (fun ⟨_, h, _⟩ => nomatch h)
  | some a => exact (hg a).trans (by simp)

/-- A loop that collects values accepts what each step accepts; what follows may rely
on their number. -/
theorem accepts_mapM {f : α → Outcome β} {cond : α → Prop}
    (hf : ∀ x (k : β → Outcome γ) Q, (∀ b, Accepts (k b) Q) → Accepts (f x >>= k) (cond x ∧ Q))
    (xs : List α) {g : List β → Outcome γ} {P : Prop}
    (hg : ∀ bs, bs.length = xs.length → Accepts (g bs) P) :
    Accepts (xs.mapM f >>= g) ((∀ x ∈ xs, cond x) ∧ P) := by
  induction xs generalizing g with
  | nil => exact (hg [] rfl).congr (by simp)
  | cons x xs ih =>
    have h : (x :: xs).mapM f >>= g = f x >>= fun b => xs.mapM f >>= fun bs => g (b :: bs) := by
      rw [List.mapM_cons]
      simp only [bind_assoc, pure_bind]
    rw [h]
    refine (hf x _ _ fun b => ih fun bs hbs => hg (b :: bs) ?_).congr ?_
    · simp [hbs]
    · rw [List.forall_mem_cons, and_assoc]

theorem mapM_eq_ok_iff {f : α → Outcome β} {xs : List α} {ys : List β} :
    xs.mapM f = .ok ys ↔ List.Forall₂ (fun x y => f x = .ok y) xs ys := by
  induction xs generalizing ys with
  | nil =>
    rw [List.mapM_nil, List.forall₂_nil_left_iff]
    exact ⟨fun h => (Outcome.ok.inj h).symm, fun h => congrArg Outcome.ok h.symm⟩
  | cons x xs ih =>
    rw [List.mapM_cons, bind_eq_ok_iff, List.forall₂_cons_left_iff]
    constructor
    · rintro ⟨y, hy, h⟩
      obtain ⟨ys', hys, h⟩ := bind_eq_ok_iff.mp h
      exact ⟨y, ys', hy, ih.mp hys, (Outcome.ok.inj h).symm⟩
    · rintro ⟨y, ys', hy, hys, rfl⟩
      exact ⟨y, hy, bind_eq_ok_iff.mpr ⟨ys', ih.mpr hys, rfl⟩⟩

end Outcome

end PrimaryElection.Encoder
