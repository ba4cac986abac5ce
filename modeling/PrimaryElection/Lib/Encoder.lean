import PrimaryElection.Lib.Outcome

/-! Encoders into a buffer of fixed capacity. A piece of an encoder is given the
capacity and the length counted so far; it writes bytes, counts, and ends with an
outcome. Each primitive has a rule for what it writes when it succeeds and a rule
for when it is free of faults, whatever the capacity. -/

namespace PrimaryElection.Encoder

/-- The bytes written by a piece, the length counted after it, and its end. -/
structure Result (α : Type) where
  bytes : List UInt8
  len : ℤ
  out : Outcome α
  deriving DecidableEq

/-- A piece of an encoder, by the capacity and the length counted before it. -/
def Enc (α : Type) := (size len : ℤ) → Result α

variable {α β γ : Type}

protected def Enc.pure (a : α) : Enc α := fun _ len => ⟨[], len, .ok a⟩

/-- The second piece writes after the first, unless that returned or faulted. -/
protected def Enc.bind (e : Enc α) (f : α → Enc β) : Enc β := fun size len =>
  match e size len with
  | ⟨bs, l, .ok a⟩ => ⟨bs ++ (f a size l).bytes, (f a size l).len, (f a size l).out⟩
  | ⟨bs, l, .code c⟩ => ⟨bs, l, .code c⟩
  | ⟨bs, l, .fault⟩ => ⟨bs, l, .fault⟩

instance : Monad Enc where
  pure := Enc.pure
  bind := Enc.bind

theorem bind_pure_id (e : Enc α) : Enc.bind e (fun a => Enc.pure a) = e := by
  funext size len
  unfold Enc.bind Enc.pure
  rcases e size len with ⟨bs, l, a | c | _⟩ <;> simp

theorem bind_bind (e : Enc α) (f : α → Enc β) (g : β → Enc γ) :
    Enc.bind (Enc.bind e f) g = Enc.bind e (fun a => Enc.bind (f a) g) := by
  funext size len
  unfold Enc.bind
  rcases e size len with ⟨bs, l, a | c | _⟩
  · rcases hf : f a size l with ⟨bs', l', b | c | _⟩ <;> simp [hf]
  · rfl
  · rfl

instance : LawfulMonad Enc :=
  LawfulMonad.mk' Enc (fun e => bind_pure_id e) (fun _ _ => rfl) bind_bind

/-! ### Primitives -/

def fail (c : ℤ) : Enc α := fun _ len => ⟨[], len, .code c⟩

/-- Count `k` more bytes; return `full` if they exceed the capacity. -/
def room (k full : ℤ) : Enc Unit := fun size len =>
  if len + k > size then ⟨[], len + k, .code full⟩ else ⟨[], len + k, .ok ()⟩

def put (bs : List UInt8) : Enc Unit := fun _ len => ⟨bs, len, .ok ()⟩

/-- Return `missing` if there is no value. -/
def require (o : Option α) (missing : ℤ) : Enc α := fun _ len =>
  match o with
  | some a => ⟨[], len, .ok a⟩
  | none => ⟨[], len, .code missing⟩

/-- Use a value without a check. -/
def use (o : Option α) : Enc α := fun _ len =>
  match o with
  | some a => ⟨[], len, .ok a⟩
  | none => ⟨[], len, .fault⟩

/-- Return `f c` where the piece returned `c`. -/
def recode (f : ℤ → ℤ) (e : Enc α) : Enc α := fun size len =>
  match e size len with
  | ⟨bs, l, .code c⟩ => ⟨bs, l, .code (f c)⟩
  | r => r

def forEach (xs : List α) (f : α → Enc Unit) : Enc Unit :=
  match xs with
  | [] => pure ()
  | x :: xs => do f x; forEach xs f

/-! ### Success -/

theorem pure_ok_iff {a b : α} {size len l : ℤ} {bs : List UInt8} :
    (pure a : Enc α) size len = ⟨bs, l, .ok b⟩ ↔ bs = [] ∧ l = len ∧ b = a := by
  change (⟨[], len, .ok a⟩ : Result α) = _ ↔ _
  simp [eq_comm]

theorem bind_ok_iff {e : Enc α} {f : α → Enc β} {size len l : ℤ} {bs : List UInt8} {b : β} :
    (e >>= f) size len = ⟨bs, l, .ok b⟩ ↔
      ∃ bs₁ l₁ a bs₂, e size len = ⟨bs₁, l₁, .ok a⟩ ∧ f a size l₁ = ⟨bs₂, l, .ok b⟩ ∧
        bs = bs₁ ++ bs₂ := by
  change Enc.bind e f size len = _ ↔ _
  unfold Enc.bind
  rcases he : e size len with ⟨bs₁, l₁, a | c | _⟩
  · rcases hf : f a size l₁ with ⟨bs₂, l₂, out⟩
    constructor
    · intro h
      simp only [hf, Result.mk.injEq] at h
      obtain ⟨rfl, rfl, rfl⟩ := h
      exact ⟨bs₁, l₁, a, bs₂, rfl, hf, rfl⟩
    · rintro ⟨bs₃, l₃, a', bs₄, h, hf', rfl⟩
      cases h
      cases hf.symm.trans hf'
      simp [hf]
  · simp
  · simp

theorem room_ok_iff {k full size len l : ℤ} {bs : List UInt8} {u : Unit} :
    room k full size len = ⟨bs, l, .ok u⟩ ↔ bs = [] ∧ l = len + k ∧ len + k ≤ size := by
  unfold room
  split_ifs with h
  · simp; omega
  · simp only [Result.mk.injEq, and_true]
    constructor
    · rintro ⟨rfl, rfl⟩; exact ⟨rfl, rfl, by omega⟩
    · rintro ⟨rfl, rfl, -⟩; exact ⟨rfl, rfl⟩

theorem put_ok_iff {cs bs : List UInt8} {size len l : ℤ} {u : Unit} :
    put cs size len = ⟨bs, l, .ok u⟩ ↔ bs = cs ∧ l = len := by
  unfold put
  simp [eq_comm]

theorem require_ok_iff {o : Option α} {missing size len l : ℤ} {bs : List UInt8} {a : α} :
    require o missing size len = ⟨bs, l, .ok a⟩ ↔ bs = [] ∧ l = len ∧ o = some a := by
  cases o <;> simp [require, eq_comm]

theorem use_ok_iff {o : Option α} {size len l : ℤ} {bs : List UInt8} {a : α} :
    use o size len = ⟨bs, l, .ok a⟩ ↔ bs = [] ∧ l = len ∧ o = some a := by
  cases o <;> simp [use, eq_comm]

theorem fail_not_ok {c size len l : ℤ} {bs : List UInt8} {a : α} :
    ¬ fail c size len = ⟨bs, l, .ok a⟩ := by
  simp [fail]

/-- A successful loop read a value from each element and wrote their pieces one
after the other. -/
theorem forEach_ok {f : α → Enc Unit} {read : α → Option β} {enc : β → List UInt8}
    (hf : ∀ x size len bs l u, f x size len = ⟨bs, l, .ok u⟩ → ∃ b, read x = some b ∧ bs = enc b)
    {xs : List α} {size len l : ℤ} {bs : List UInt8} {u : Unit}
    (h : forEach xs f size len = ⟨bs, l, .ok u⟩) :
    ∃ vs, xs.mapM read = some vs ∧ vs.length = xs.length ∧ bs = vs.flatMap enc := by
  induction xs generalizing len bs with
  | nil =>
    obtain ⟨rfl, -, -⟩ := pure_ok_iff.mp h
    exact ⟨[], rfl, rfl, rfl⟩
  | cons x xs ih =>
    obtain ⟨bs₁, l₁, v, bs₂, h₁, h₂, rfl⟩ := bind_ok_iff.mp h
    obtain ⟨b, hb, rfl⟩ := hf _ _ _ _ _ _ h₁
    obtain ⟨vs, hvs, hl, rfl⟩ := ih h₂
    exact ⟨b :: vs, by simp [List.mapM_cons, hb, hvs], by simp [hl], rfl⟩

/-! ### Absence of faults -/

/-- From the counted length `len`, no capacity that holds it leads to a fault. -/
def FaultFree (e : Enc α) (len : ℤ) : Prop := ∀ size, len ≤ size → (e size len).out ≠ .fault

theorem faultFree_pure (a : α) (len : ℤ) : FaultFree (pure a : Enc α) len := by
  intro size _ h
  cases h

theorem faultFree_fail (c len : ℤ) : FaultFree (fail c : Enc α) len := by
  intro size _ h
  cases h

theorem bind_of_ok {e : Enc α} {size len l : ℤ} {bs : List UInt8} {a : α}
    (h : e size len = ⟨bs, l, .ok a⟩) (f : α → Enc β) :
    ((e >>= f) size len).out = (f a size l).out := by
  change (Enc.bind e f size len).out = _
  unfold Enc.bind
  rw [h]

theorem bind_of_code {e : Enc α} {size len l c : ℤ} {bs : List UInt8}
    (h : e size len = ⟨bs, l, .code c⟩) (f : α → Enc β) :
    ((e >>= f) size len).out = .code c := by
  change (Enc.bind e f size len).out = _
  unfold Enc.bind
  rw [h]

theorem bind_of_fault {e : Enc α} {size len l : ℤ} {bs : List UInt8}
    (h : e size len = ⟨bs, l, .fault⟩) (f : α → Enc β) :
    ((e >>= f) size len).out = .fault := by
  change (Enc.bind e f size len).out = _
  unfold Enc.bind
  rw [h]

/-- A piece that succeeds with one value at every capacity is passed over. -/
theorem faultFree_of_ok {e : Enc α} {len : ℤ} {bs : List UInt8} {a : α}
    (h : ∀ size, e size len = ⟨bs, len, .ok a⟩) (f : α → Enc β) :
    FaultFree (e >>= f) len ↔ FaultFree (f a) len := by
  refine forall_congr' fun size => imp_congr_right fun _ => not_congr ?_
  rw [bind_of_ok (h size)]

theorem faultFree_room {k full len : ℤ} (hk : 0 ≤ k) (f : Unit → Enc β) :
    FaultFree (room k full >>= f) len ↔ FaultFree (f ()) (len + k) := by
  constructor
  · intro h size hs
    have hr : room k full size len = ⟨[], len + k, .ok ()⟩ := room_ok_iff.mpr ⟨rfl, rfl, hs⟩
    have := h size (by omega)
    rwa [bind_of_ok hr] at this
  · intro h size _
    by_cases hs : len + k ≤ size
    · rw [bind_of_ok (room_ok_iff.mpr ⟨rfl, rfl, hs⟩)]
      exact h size hs
    · have hr : room k full size len = ⟨[], len + k, .code full⟩ := if_pos (by omega)
      rw [bind_of_code hr]
      simp

theorem faultFree_put (bs : List UInt8) (len : ℤ) (f : Unit → Enc β) :
    FaultFree (put bs >>= f) len ↔ FaultFree (f ()) len :=
  faultFree_of_ok (fun _ => put_ok_iff.mpr ⟨rfl, rfl⟩) f

theorem faultFree_require (o : Option α) (missing len : ℤ) (f : α → Enc β) :
    FaultFree (require o missing >>= f) len ↔ ∀ a, o = some a → FaultFree (f a) len := by
  cases o with
  | none =>
    have h : FaultFree (require none missing >>= f) len := by
      intro size _
      rw [bind_of_code (rfl : require none missing size len = ⟨[], len, .code missing⟩)]
      simp
    simp [h]
  | some a =>
    rw [faultFree_of_ok (fun _ => require_ok_iff.mpr ⟨rfl, rfl, rfl⟩) f]
    simp

theorem faultFree_use (o : Option α) (len : ℤ) (f : α → Enc β) :
    FaultFree (use o >>= f) len ↔ ∃ a, o = some a ∧ FaultFree (f a) len := by
  cases o with
  | none =>
    have h : ¬ FaultFree (use none >>= f) len := by
      intro h
      apply h len le_rfl
      rw [bind_of_fault (rfl : use none len len = ⟨[], len, .fault⟩)]
    simp [h]
  | some a =>
    rw [faultFree_of_ok (fun _ => use_ok_iff.mpr ⟨rfl, rfl, rfl⟩) f]
    simp

theorem faultFree_recode (g : ℤ → ℤ) (e : Enc α) (len : ℤ) (f : α → Enc β) :
    FaultFree (recode g e >>= f) len ↔ FaultFree (e >>= f) len := by
  unfold FaultFree
  refine forall_congr' fun size => imp_congr_right fun _ => not_congr ?_
  rcases he : e size len with ⟨bs, l, a | c | _⟩
  · have hr : recode g e size len = ⟨bs, l, .ok a⟩ := by unfold recode; rw [he]
    rw [bind_of_ok hr, bind_of_ok he]
  · have hr : recode g e size len = ⟨bs, l, .code (g c)⟩ := by unfold recode; rw [he]
    rw [bind_of_code hr, bind_of_code he]
    simp
  · have hr : recode g e size len = ⟨bs, l, .fault⟩ := by unfold recode; rw [he]
    rw [bind_of_fault hr, bind_of_fault he]

theorem faultFree_forEach {f : α → Enc Unit} {cond : α → Prop → Prop}
    (hf : ∀ x (g : Unit → Enc β) P, (∀ len, FaultFree (g ()) len ↔ P) →
      ∀ len, FaultFree (f x >>= g) len ↔ cond x P)
    (xs : List α) {g : Unit → Enc β} {P : Prop} (hg : ∀ len, FaultFree (g ()) len ↔ P) (len : ℤ) :
    FaultFree (forEach xs f >>= g) len ↔ Outcome.forEachCond cond xs P := by
  induction xs generalizing len with
  | nil => exact hg len
  | cons x xs ih =>
    have h : forEach (x :: xs) f >>= g = f x >>= fun _ => forEach xs f >>= g := by
      rw [forEach, bind_assoc]
    rw [h]
    exact hf x _ _ ih len

end PrimaryElection.Encoder
