import PrimaryElection.Lib.Bytes
import Mathlib.Order.CompletePartialOrder
import Mathlib.Order.Interval.Set.Disjoint

/-! A byte memory, the stores of programs into it and the words read from it. Writers
whose stores stay in pairwise disjoint regions leave the same memory in every
interleaving, that of running them one after the other. -/

namespace PrimaryElection.Memory

open CInt Bytes

abbrev Mem := ℤ → UInt8

/-- Bytes put at consecutive addresses. -/
structure Store where
  addr : ℤ
  bytes : List UInt8
  deriving DecidableEq

namespace Store

def footprint (w : Store) : Set ℤ := Set.Ico w.addr (w.addr + w.bytes.length)

def apply (w : Store) (m : Mem) : Mem := fun x =>
  if w.addr ≤ x then w.bytes[(x - w.addr).toNat]?.getD (m x) else m x

theorem apply_of_notMem {w : Store} {m : Mem} {x : ℤ} (h : x ∉ w.footprint) :
    w.apply m x = m x := by
  unfold apply
  split_ifs with ha
  · have hl : w.bytes.length ≤ (x - w.addr).toNat := by
      by_contra hc
      exact h ⟨ha, by omega⟩
    rw [List.getElem?_eq_none hl, Option.getD_none]
  · rfl

/-- What a store puts at an address does not depend on the other addresses. -/
theorem apply_congr (w : Store) {m m' : Mem} {x : ℤ} (h : m x = m' x) :
    w.apply m x = w.apply m' x := by
  unfold apply
  rw [h]

end Store

def load (m : Mem) (a : ℤ) (n : ℕ) : List UInt8 := (List.range n).map fun i : ℕ => m (a + i)

@[simp] theorem load_length (m : Mem) (a : ℤ) (n : ℕ) : (load m a n).length = n := by simp [load]

theorem load_congr {m m' : Mem} {a : ℤ} {n : ℕ} (h : ∀ x, a ≤ x → x < a + n → m x = m' x) :
    load m a n = load m' a n := by
  refine List.map_congr_left fun i hi => h _ (by omega) ?_
  have := List.mem_range.mp hi
  omega

theorem load_add (m : Mem) (a : ℤ) (n k : ℕ) :
    load m a (n + k) = load m a n ++ load m (a + n) k := by
  unfold load
  rw [List.range_add, List.map_append, List.map_map]
  congr 1
  refine List.map_congr_left fun i _ => ?_
  simp [add_assoc]

theorem load_store_self (w : Store) (m : Mem) : load (w.apply m) w.addr w.bytes.length = w.bytes := by
  refine List.ext_getElem (by simp) fun i h₁ h₂ => ?_
  simp [load, Store.apply, List.getElem?_eq_getElem h₂]

/-- A store elsewhere is not seen. -/
theorem load_store_of_disjoint {w : Store} {m : Mem} {a : ℤ} {n : ℕ}
    (h : a + n ≤ w.addr ∨ w.addr + w.bytes.length ≤ a) : load (w.apply m) a n = load m a n := by
  refine load_congr fun x h₁ h₂ => Store.apply_of_notMem ?_
  rintro ⟨h₃, h₄⟩
  omega

theorem load_slice {m : Mem} {a : ℤ} {n i k : ℕ} {bs : List UInt8} (h : load m a n = bs)
    (hik : i + k ≤ n) : load m (a + i) k = (bs.drop i).take k := by
  subst h
  refine List.ext_getElem (by simp; omega) fun l h₁ h₂ => ?_
  simp [load, add_assoc]

theorem load_words (m : Mem) (a : ℤ) (n : ℕ) :
    load m a (4 * n) = (List.range n).flatMap fun j : ℕ => load m (a + 4 * j) 4 := by
  induction n with
  | zero => rfl
  | succ n ih =>
    rw [mul_add, mul_one, load_add, ih, List.range_succ, List.flatMap_append]
    simp

/-! ### Several stores -/

def applyAll (ws : List Store) (m : Mem) : Mem := ws.foldl (fun m w => w.apply m) m

@[simp] theorem applyAll_nil (m : Mem) : applyAll [] m = m := rfl

@[simp] theorem applyAll_cons (w : Store) (ws : List Store) (m : Mem) :
    applyAll (w :: ws) m = applyAll ws (w.apply m) := rfl

theorem applyAll_append (ws vs : List Store) (m : Mem) :
    applyAll (ws ++ vs) m = applyAll vs (applyAll ws m) := List.foldl_append

theorem applyAll_of_notMem {ws : List Store} {x : ℤ} (h : ∀ w ∈ ws, x ∉ w.footprint) (m : Mem) :
    applyAll ws m x = m x := by
  induction ws generalizing m with
  | nil => rfl
  | cons w ws ih =>
    rw [applyAll_cons, ih (fun v hv => h v (List.mem_cons_of_mem _ hv)),
      Store.apply_of_notMem (h w List.mem_cons_self)]

/-! ### Writers in disjoint regions -/

variable {ι : Type*}

/-- The memory in which each writer has made the stores `done` from `m₀` on: its own
region is as these stores leave it, and what is in no region is unchanged. -/
structure Interleaved (R : ι → Set ℤ) (m₀ : Mem) (done : ι → List Store) (m : Mem) : Prop where
  inside : ∀ i, ∀ x ∈ R i, m x = applyAll (done i) m₀ x
  outside : ∀ x, (∀ i, x ∉ R i) → m x = m₀ x

namespace Interleaved

variable {R : ι → Set ℤ} {m₀ m m' : Mem} {done : ι → List Store}

theorem start : Interleaved R m₀ (fun _ => []) m₀ := ⟨fun _ _ _ => rfl, fun _ _ => rfl⟩

/-- A writer makes one more store, in its own region. -/
theorem store [DecidableEq ι] (hR : Pairwise fun i j => Disjoint (R i) (R j))
    (h : Interleaved R m₀ done m) {i : ι} {w : Store} (hw : w.footprint ⊆ R i) :
    Interleaved R m₀ (Function.update done i (done i ++ [w])) (w.apply m) := by
  constructor
  · intro j x hx
    by_cases hj : j = i
    · subst hj
      rw [Function.update_self, applyAll_append]
      exact w.apply_congr (h.inside j x hx)
    · have hn : x ∉ w.footprint := fun hm =>
        Set.disjoint_left.mp (hR hj) hx (hw hm)
      rw [Function.update_of_ne hj, Store.apply_of_notMem hn]
      exact h.inside j x hx
  · intro x hx
    rw [Store.apply_of_notMem fun hm => hx i (hw hm)]
    exact h.outside x hx

theorem stores [DecidableEq ι] (hR : Pairwise fun i j => Disjoint (R i) (R j))
    (h : Interleaved R m₀ done m) {i : ι} {ws : List Store} (hw : ∀ w ∈ ws, w.footprint ⊆ R i) :
    Interleaved R m₀ (Function.update done i (done i ++ ws)) (applyAll ws m) := by
  induction ws generalizing done m with
  | nil => simpa using h
  | cons w ws ih =>
    have hone := h.store hR (hw w List.mem_cons_self)
    have hrest := ih hone fun v hv => hw v (List.mem_cons_of_mem _ hv)
    simpa using hrest

/-- The stores made determine the memory. -/
theorem unique (h : Interleaved R m₀ done m) (h' : Interleaved R m₀ done m') : m = m' := by
  funext x
  by_cases hx : ∃ i, x ∈ R i
  · obtain ⟨i, hi⟩ := hx
    rw [h.inside i x hi, h'.inside i x hi]
  · rw [h.outside x (not_exists.mp hx), h'.outside x (not_exists.mp hx)]

/-- Running the first `n` writers one after the other is one of the interleavings. -/
theorem sequential {R : ℕ → Set ℤ} (m₀ : Mem) (hR : Pairwise fun i j => Disjoint (R i) (R j))
    {jobs : ℕ → List Store} {n : ℕ} (hw : ∀ i < n, ∀ w ∈ jobs i, w.footprint ⊆ R i) :
    Interleaved R m₀ (fun i => if i < n then jobs i else [])
      (applyAll ((List.range n).flatMap jobs) m₀) := by
  induction n with
  | zero => exact start
  | succ n ih =>
    have h := (ih fun i hi => hw i (by omega)).stores hR (hw n (by omega))
    have hd : Function.update (fun i => if i < n then jobs i else []) n
        ((if n < n then jobs n else []) ++ jobs n) = fun i => if i < n + 1 then jobs i else [] := by
      funext i
      rcases lt_trichotomy i n with hi | rfl | hi
      · simp [Function.update_of_ne hi.ne, hi, Nat.lt_succ_of_lt hi]
      · simp
      · simp [Function.update_of_ne hi.ne', not_lt.mpr hi.le, not_lt.mpr (Nat.succ_le_of_lt hi)]
    rw [List.range_succ, List.flatMap_append, applyAll_append, List.flatMap_singleton]
    rwa [hd] at h

end Interleaved

/-! ### Words -/

/-- The `int` at an address. -/
def loadInt (m : Mem) (a : ℤ) : ℤ := int4Val (load m a 4)

def storeInt (a x : ℤ) : Store := ⟨a, int4 x⟩

def loadWord (m : Mem) (a : ℤ) : UInt32 := UInt32.ofNat (leVal (load m a 4))

def storeWord (a : ℤ) (v : UInt32) : Store := ⟨a, leBytes 4 v.toNat⟩

@[simp] theorem storeInt_addr (a x : ℤ) : (storeInt a x).addr = a := rfl

@[simp] theorem storeInt_length (a x : ℤ) : (storeInt a x).bytes.length = 4 := int4_length x

@[simp] theorem storeWord_addr (a : ℤ) (v : UInt32) : (storeWord a v).addr = a := rfl

@[simp] theorem storeWord_length (a : ℤ) (v : UInt32) : (storeWord a v).bytes.length = 4 :=
  leBytes_length _ _

theorem loadInt_congr {m m' : Mem} {a : ℤ} (h : ∀ y, a ≤ y → y < a + 4 → m y = m' y) :
    loadInt m a = loadInt m' a := congrArg int4Val (load_congr h)

theorem loadWord_congr {m m' : Mem} {a : ℤ} (h : ∀ y, a ≤ y → y < a + 4 → m y = m' y) :
    loadWord m a = loadWord m' a := congrArg (fun bs => UInt32.ofNat (leVal bs)) (load_congr h)

theorem loadInt_of_load {m : Mem} {a x : ℤ} (h : load m a 4 = int4 x) (h₁ : -2147483648 ≤ x)
    (h₂ : x < 2147483648) : loadInt m a = x := by
  unfold loadInt
  rw [h, int4Val_int4 h₁ h₂]

theorem loadWord_of_load {m : Mem} {a : ℤ} {v : UInt32} (h : load m a 4 = leBytes 4 v.toNat) :
    loadWord m a = v := by
  unfold loadWord
  rw [h, leVal_leBytes]
  apply UInt32.toNat_inj.mp
  have := v.toNat_lt
  rw [UInt32.toNat_ofNat']
  omega

theorem load_storeInt (m : Mem) (a x : ℤ) : load ((storeInt a x).apply m) a 4 = int4 x :=
  load_store_self (storeInt a x) m

theorem load_storeWord (m : Mem) (a : ℤ) (v : UInt32) :
    load ((storeWord a v).apply m) a 4 = leBytes 4 v.toNat := load_store_self (storeWord a v) m

/-! ### Accesses -/

structure Span where
  addr : ℤ
  size : ℕ
  deriving DecidableEq

def Span.Inside (s : Span) (lo hi : ℤ) : Prop := lo ≤ s.addr ∧ s.addr + s.size ≤ hi

instance (s : Span) (lo hi : ℤ) : Decidable (s.Inside lo hi) := inferInstanceAs (Decidable (_ ∧ _))

def Store.span (w : Store) : Span := ⟨w.addr, w.bytes.length⟩

/-! ### Blocks -/

/-- Bytes from 0 on, and zeros around them. -/
def ofBytes (bs : List UInt8) : Mem := fun y => if 0 ≤ y then bs[y.toNat]?.getD 0 else 0

/-- Nothing changes outside of a block of `n` bytes. -/
def Outside (n : ℕ) (m m' : Mem) : Prop := ∀ y, y < 0 ∨ (n : ℤ) ≤ y → m' y = m y

namespace Outside

variable {n : ℕ} {m m' m'' : Mem}

theorem refl (n : ℕ) (m : Mem) : Outside n m m := fun _ _ => rfl

theorem trans (h : Outside n m m') (h' : Outside n m' m'') : Outside n m m'' :=
  fun y hy => (h' y hy).trans (h y hy)

theorem store {w : Store} (h : w.span.Inside 0 n) (m : Mem) : Outside n m (w.apply m) := by
  intro y hy
  refine Store.apply_of_notMem ?_
  rintro ⟨h₁, h₂⟩
  have hlo : 0 ≤ w.addr := h.1
  have hhi : w.addr + w.bytes.length ≤ n := h.2
  omega

theorem stores {ws : List Store} (h : ∀ w ∈ ws, w.span.Inside 0 n) (m : Mem) : Outside n m (applyAll ws m) := by
  induction ws generalizing m with
  | nil => exact refl n m
  | cons w ws ih =>
    have hfirst := store (h w List.mem_cons_self) m
    exact hfirst.trans (ih (fun v hv => h v (List.mem_cons_of_mem w hv)) _)

end Outside

theorem ofBytes_outside {bs : List UInt8} {y : ℤ} (h : y < 0 ∨ (bs.length : ℤ) ≤ y) : ofBytes bs y = 0 := by
  unfold ofBytes
  split_ifs with hy
  · rw [List.getElem?_eq_none (by omega), Option.getD_none]
  · rfl

theorem ofBytes_load {m : Mem} {n : ℕ} (h : ∀ y, y < 0 ∨ (n : ℤ) ≤ y → m y = 0) : ofBytes (load m 0 n) = m := by
  funext y
  by_cases hy : y < 0 ∨ (n : ℤ) ≤ y
  · rw [h y hy, ofBytes_outside (by rwa [load_length])]
  · have hlt : y.toNat < (load m 0 n).length := by
      rw [load_length]
      omega
    rw [ofBytes, if_pos (by omega), List.getElem?_eq_getElem hlt, Option.getD_some]
    simp only [load, List.getElem_map, List.getElem_range, zero_add]
    rw [Int.toNat_of_nonneg (by omega)]

/-- A change inside of a block is one of its bytes. -/
theorem Outside.ofBytes_load {bs : List UInt8} {m : Mem} {n : ℕ} (h : Outside n (ofBytes bs) m) (hn : bs.length = n) :
    ofBytes (load m 0 n) = m :=
  Memory.ofBytes_load fun y hy => (h y hy).trans (ofBytes_outside (by rwa [hn]))

end PrimaryElection.Memory
