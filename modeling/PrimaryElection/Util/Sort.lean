import Mathlib.Tactic

/-! The quicksort of UT_Sort.h on an array of keys and a parallel array of values,
`qs_recursion_1k_1p`. Only exchanges touch the arrays, so whatever the comparison
answers the values are permuted. -/

namespace PrimaryElection.Util

/-- Exchange two elements through a temporary; nothing happens outside the array. -/
def swapAt {α : Type*} (l : List α) (i j : ℕ) : List α :=
  match l[i]?, l[j]? with
  | some x, some y => (l.set i y).set j x
  | _, _ => l

theorem swapAt_perm {α : Type*} (l : List α) (i j : ℕ) : (swapAt l i j).Perm l := by
  unfold swapAt
  split
  next x y hi hj =>
    obtain ⟨hi', rfl⟩ := List.getElem?_eq_some_iff.mp hi
    obtain ⟨hj', rfl⟩ := List.getElem?_eq_some_iff.mp hj
    exact List.set_set_perm hi' hj'
  next => exact List.Perm.refl l

@[simp] theorem swapAt_length {α : Type*} (l : List α) (i j : ℕ) :
    (swapAt l i j).length = l.length := (swapAt_perm l i j).length_eq

namespace Qs

variable {κ β : Type*}

/-- `tKey_1` and `tKey_2`. -/
structure Arrays (κ β : Type*) where
  keys : List κ
  vals : List β

def Arrays.swap (a : Arrays κ β) (i j : ℕ) : Arrays κ β :=
  ⟨swapAt a.keys i j, swapAt a.vals i j⟩

theorem Arrays.swap_vals (a : Arrays κ β) (i j : ℕ) : (a.swap i j).vals.Perm a.vals :=
  swapAt_perm _ _ _

variable (lt : κ → κ → Bool)

/-- `tKey_1[i] < mid`. -/
def below (keys : List κ) (mid : κ) (i : ℕ) : Bool := (keys[i]?).any fun k => lt k mid

/-- `tKey_1[i] > mid`. -/
def above (keys : List κ) (mid : κ) (i : ℕ) : Bool := (keys[i]?).any fun k => lt mid k

/-- `while(lBegin < lEnd && tKey_1[lBegin] < tMid_1) lBegin++`, in `lEnd - lBegin` steps. -/
def scanUp (keys : List κ) (mid : κ) (e : ℕ) : ℕ → ℕ → ℕ
  | 0, b => b
  | n + 1, b => if b < e ∧ below lt keys mid b then scanUp keys mid e n (b + 1) else b

/-- `while(lBegin < lEnd && tKey_1[lEnd] > tMid_1) lEnd--`. -/
def scanDown (keys : List κ) (mid : κ) (b : ℕ) : ℕ → ℕ → ℕ
  | 0, e => e
  | n + 1, e => if b < e ∧ above lt keys mid e then scanDown keys mid b n (e - 1) else e

/-- The partition loop; each round exchanges one pair or ends it. -/
def partitionLoop (mid : κ) : ℕ → Arrays κ β → ℕ → ℕ → Arrays κ β × ℕ × ℕ
  | 0, a, b, e => (a, b, e)
  | n + 1, a, b, e =>
    if b < e then
      let b := scanUp lt a.keys mid e (e - b) b
      let e := scanDown lt a.keys mid b (e - b) e
      if b < e then
        partitionLoop mid n (a.swap b e) (b + 1) (if b + 1 < e then e - 1 else e)
      else partitionLoop mid n a b e
    else (a, b, e)

/-- `fuel` bounds the depth of the recursion; the range length is enough for any
comparison that orders the keys. -/
def qsRecursion1k1p : ℕ → ℕ → ℕ → Arrays κ β → Arrays κ β
  | 0, _, _, a => a
  | fuel + 1, lBegin, lEnd, a =>
    if lEnd ≤ lBegin then a
    else if lBegin + 1 = lEnd then
      match a.keys[lBegin]?, a.keys[lEnd]? with
      | some x, some y => if lt y x then a.swap lBegin lEnd else a
      | _, _ => a
    else
      match a.keys[(lBegin + lEnd) / 2]? with
      | none => a
      | some mid =>
        let r := partitionLoop lt mid (lEnd - lBegin) a lBegin lEnd
        let b := if below lt r.1.keys mid r.2.1 then r.2.1 + 1 else r.2.1
        let a := if lBegin + 1 < b then qsRecursion1k1p fuel lBegin (b - 1) r.1 else r.1
        if r.2.2 < lEnd then qsRecursion1k1p fuel r.2.2 lEnd a else a

/-! ### Ranges -/

theorem scanUp_range (keys : List κ) (mid : κ) {e n b : ℕ} (hb : b ≤ e) :
    b ≤ scanUp lt keys mid e n b ∧ scanUp lt keys mid e n b ≤ e := by
  induction n generalizing b with
  | zero => exact ⟨le_rfl, hb⟩
  | succ n ih =>
    rw [scanUp]
    split
    next hc =>
      have := ih (b := b + 1) (by omega)
      omega
    next => exact ⟨le_rfl, hb⟩

theorem scanDown_range (keys : List κ) (mid : κ) {b n e : ℕ} (hb : b ≤ e) :
    b ≤ scanDown lt keys mid b n e ∧ scanDown lt keys mid b n e ≤ e := by
  induction n generalizing e with
  | zero => exact ⟨hb, le_rfl⟩
  | succ n ih =>
    rw [scanDown]
    split
    next hc =>
      have := ih (e := e - 1) (by omega)
      omega
    next => exact ⟨hb, le_rfl⟩

theorem partitionLoop_range (mid : κ) {n b e : ℕ} (a : Arrays κ β) (hb : b ≤ e) :
    b ≤ (partitionLoop lt mid n a b e).2.1 ∧
      (partitionLoop lt mid n a b e).2.1 ≤ (partitionLoop lt mid n a b e).2.2 ∧
      (partitionLoop lt mid n a b e).2.2 ≤ e := by
  induction n generalizing a b e with
  | zero => exact ⟨le_rfl, hb, le_rfl⟩
  | succ n ih =>
    rw [partitionLoop]
    dsimp only
    have hup := scanUp_range lt a.keys mid (n := e - b) hb
    generalize scanUp lt a.keys mid e (e - b) b = i at hup ⊢
    have hdown := scanDown_range lt a.keys mid (n := e - i) hup.2
    generalize scanDown lt a.keys mid i (e - i) e = j at hdown ⊢
    split
    · split
      next hij =>
        have he : i + 1 ≤ (if i + 1 < j then j - 1 else j) ∧ (if i + 1 < j then j - 1 else j) ≤ j := by
          split <;> omega
        generalize (if i + 1 < j then j - 1 else j) = e' at he ⊢
        have := ih (a.swap i j) he.1
        omega
      · have := ih a hdown.1
        omega
    · exact ⟨le_rfl, hb, le_rfl⟩

/-! ### Values -/

theorem partitionLoop_vals (mid : κ) (n : ℕ) (a : Arrays κ β) (b e : ℕ) :
    (partitionLoop lt mid n a b e).1.vals.Perm a.vals := by
  induction n generalizing a b e with
  | zero => exact List.Perm.refl _
  | succ n ih =>
    rw [partitionLoop]
    dsimp only
    split_ifs
    · exact (ih _ _ _).trans (a.swap_vals _ _)
    · exact (ih _ _ _).trans (a.swap_vals _ _)
    · exact ih _ _ _
    · exact List.Perm.refl _

theorem qsRecursion1k1p_vals (fuel b e : ℕ) (a : Arrays κ β) :
    (qsRecursion1k1p lt fuel b e a).vals.Perm a.vals := by
  induction fuel generalizing a b e with
  | zero => exact List.Perm.refl _
  | succ fuel ih =>
    rw [qsRecursion1k1p]
    split
    · exact List.Perm.refl _
    split
    · split
      · split
        · exact a.swap_vals _ _
        · exact List.Perm.refl _
      · exact List.Perm.refl _
    split
    · exact List.Perm.refl _
    · next mid _ =>
      dsimp only
      have hp := partitionLoop_vals lt mid (e - b) a b e
      split_ifs
      all_goals first
        | exact ((ih _ _ _).trans (ih _ _ _)).trans hp
        | exact (ih _ _ _).trans hp
        | exact hp

end Qs

end PrimaryElection.Util
