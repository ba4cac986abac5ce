import Mathlib.Tactic

/-! Logs of records in files that a process writes until it dies. A format writes a
record as bytes and tells from the rest of a file whether it begins with a record, is
what remains of a torn write, or is neither. A log is a run of records and a torn rest
behind the position where the next record goes. Files are created, removed and renamed
one operation after the other, and a death leaves a first part of the operations done. -/

namespace PrimaryElection.Journal

/-! ### Records -/

/-- What the rest of a file begins with. -/
inductive Head (ρ : Type) where
  | torn
  | record (r : ρ) (rest : List UInt8)
  | bad

structure Format (ρ : Type) where
  encode : ρ → List UInt8
  head : List UInt8 → Head ρ
  head_nil : head [] = .torn
  head_encode : ∀ r rest, head (encode r ++ rest) = .record r rest
  encode_ne_nil : ∀ r, encode r ≠ []

variable {ρ σ : Type}

namespace Format

/-- What a reader passes over at the end of a log. -/
def Torn (f : Format ρ) (bs : List UInt8) : Prop := f.head bs = .torn

theorem torn_nil (f : Format ρ) : f.Torn [] := f.head_nil

def encodeAll (f : Format ρ) (rs : List ρ) : List UInt8 := rs.flatMap f.encode

@[simp] theorem encodeAll_nil (f : Format ρ) : f.encodeAll [] = [] := rfl

@[simp] theorem encodeAll_cons (f : Format ρ) (r : ρ) (rs : List ρ) :
    f.encodeAll (r :: rs) = f.encode r ++ f.encodeAll rs := rfl

@[simp] theorem encodeAll_append (f : Format ρ) (rs qs : List ρ) :
    f.encodeAll (rs ++ qs) = f.encodeAll rs ++ f.encodeAll qs := List.flatMap_append

/-- Apply the records at the head of the rest of a file, and stop at its end or at a torn
write. The first argument bounds the records. -/
def replay (f : Format ρ) (apply : σ → ρ → Option σ) : ℕ → σ → List UInt8 → Option (σ × List UInt8)
  | 0, s, bs => some (s, bs)
  | n + 1, s, bs =>
    if bs = [] then some (s, bs)
    else
      match f.head bs with
      | .torn => some (s, bs)
      | .record r rest => (apply s r).bind fun s' => replay f apply n s' rest
      | .bad => none

theorem replay_encode (f : Format ρ) (apply : σ → ρ → Option σ) (n : ℕ) (s : σ) (r : ρ)
    (rest : List UInt8) : f.replay apply (n + 1) s (f.encode r ++ rest) =
      (apply s r).bind fun s' => f.replay apply n s' rest := by
  have hne : f.encode r ++ rest ≠ [] := by
    intro h
    exact f.encode_ne_nil r (List.append_eq_nil_iff.mp h).1
  rw [replay, if_neg hne, f.head_encode]

theorem replay_torn (f : Format ρ) (apply : σ → ρ → Option σ) (n : ℕ) (s : σ) {bs : List UInt8}
    (h : f.Torn bs) : f.replay apply n s bs = some (s, bs) := by
  unfold Torn at h
  cases n with
  | zero => rfl
  | succ n => rw [replay, h, ite_self]

/-- The records at the head of a file are applied in order. -/
theorem replay_encodeAll (f : Format ρ) (apply : σ → ρ → Option σ) (n : ℕ) (s : σ) (rs : List ρ)
    (rest : List UInt8) : f.replay apply (rs.length + n) s (f.encodeAll rs ++ rest) =
      (rs.foldlM apply s).bind fun s' => f.replay apply n s' rest := by
  induction rs generalizing s with
  | nil => simp
  | cons r rs ih =>
    rw [List.length_cons, Nat.succ_add, encodeAll_cons, List.append_assoc, replay_encode,
      List.foldlM_cons]
    cases hr : apply s r with
    | none => rfl
    | some s' => exact ih s'

theorem length_le_encodeAll (f : Format ρ) (rs : List ρ) : rs.length ≤ (f.encodeAll rs).length := by
  induction rs with
  | nil => exact le_rfl
  | cons r rs ih =>
    have := List.length_pos_iff.mpr (f.encode_ne_nil r)
    rw [encodeAll_cons, List.length_append, List.length_cons]
    omega

end Format

/-! ### Writing at a position -/

def writeAt (file : List UInt8) (pos : ℕ) (bs : List UInt8) : List UInt8 :=
  file.take pos ++ bs ++ file.drop (pos + bs.length)

theorem writeAt_append (front tail bs : List UInt8) :
    writeAt (front ++ tail) front.length bs = front ++ (bs ++ tail.drop bs.length) := by
  simp [writeAt, List.drop_append]

/-- The file holds the records and a torn rest, and the next record goes behind them. -/
structure Holds (f : Format ρ) (rs : List ρ) (file : List UInt8) (pos : ℕ) : Prop where
  front : file.take pos = f.encodeAll rs
  pos_le : pos ≤ file.length
  torn : f.Torn (file.drop pos)

namespace Holds

variable {f : Format ρ} {rs : List ρ} {file : List UInt8} {pos : ℕ}

theorem empty : Holds f [] [] 0 := ⟨rfl, le_rfl, f.torn_nil⟩

theorem file_eq (h : Holds f rs file pos) : file = f.encodeAll rs ++ file.drop pos := by
  rw [← h.front, List.take_append_drop]

theorem length_encodeAll (h : Holds f rs file pos) : (f.encodeAll rs).length = pos := by
  rw [← h.front, List.length_take]
  exact min_eq_left h.pos_le

theorem length_le (h : Holds f rs file pos) : rs.length ≤ pos := by
  rw [← h.length_encodeAll]
  exact f.length_le_encodeAll rs

/-- A log read from the start gives its records, up to the position behind them. -/
theorem replay (h : Holds f rs file pos) (apply : σ → ρ → Option σ) (s : σ) :
    f.replay apply file.length s file = (rs.foldlM apply s).map fun s' => (s', file.drop pos) := by
  have hlen : file.length = rs.length + (file.length - rs.length) := by
    have := h.length_le
    have := h.pos_le
    omega
  conv_lhs => rw [hlen, h.file_eq, List.length_append, f.replay_encodeAll]
  cases rs.foldlM apply s with
  | none => rfl
  | some s' => exact f.replay_torn apply _ s' h.torn

theorem writeAt_eq (h : Holds f rs file pos) (bs : List UInt8) :
    writeAt file pos bs = f.encodeAll rs ++ (bs ++ (file.drop pos).drop bs.length) := by
  conv_lhs => rw [h.file_eq, ← h.length_encodeAll]
  rw [writeAt_append, h.length_encodeAll]

/-- A file read after a write behind the records, whatever was written. -/
theorem replay_writeAt (h : Holds f rs file pos) (apply : σ → ρ → Option σ) (s : σ) (bs : List UInt8) :
    ∃ n, bs.length ≤ n ∧ f.replay apply (writeAt file pos bs).length s (writeAt file pos bs) =
      (rs.foldlM apply s).bind fun s' =>
        f.replay apply n s' (bs ++ (file.drop pos).drop bs.length) := by
  rw [h.writeAt_eq, List.length_append]
  have hle := f.length_le_encodeAll rs
  refine ⟨(f.encodeAll rs).length - rs.length + (bs ++ (file.drop pos).drop bs.length).length, ?_, ?_⟩
  · rw [List.length_append]
    omega
  · rw [← f.replay_encodeAll]
    congr 1
    omega

theorem of_append {tail : List UInt8} (ht : f.Torn tail) :
    Holds f rs (f.encodeAll rs ++ tail) (f.encodeAll rs).length :=
  ⟨List.take_left, by simp, by rwa [List.drop_left]⟩

theorem write (h : Holds f rs file pos) {r : ρ} (ht : f.Torn ((file.drop pos).drop (f.encode r).length)) :
    Holds f (rs ++ [r]) (writeAt file pos (f.encode r)) (pos + (f.encode r).length) := by
  have hw : Holds f (rs ++ [r]) _ _ := of_append ht
  simp only [Format.encodeAll_append, Format.encodeAll_cons, Format.encodeAll_nil, List.append_nil,
    List.length_append, h.length_encodeAll] at hw
  rwa [h.writeAt_eq, ← List.append_assoc]

theorem tear (h : Holds f rs file pos) {bs : List UInt8}
    (ht : f.Torn (bs ++ (file.drop pos).drop bs.length)) : Holds f rs (writeAt file pos bs) pos := by
  have hw : Holds f rs _ _ := of_append ht
  rwa [h.length_encodeAll, ← h.writeAt_eq] at hw

end Holds

/-! ### Files -/

/-- The contents of the files there are. -/
abbrev Disk (N : Type) := N → Option (List UInt8)

/-- What is done to files in one operation each. -/
inductive FileOp (N : Type) where
  | write (n : N) (bs : List UInt8)
  | remove (n : N)
  | rename (src des : N)

namespace FileOp

variable {N : Type} [DecidableEq N]

/-- A file that is not there is not removed, nor renamed. -/
def exec (d : Disk N) : FileOp N → Disk N
  | write n bs => Function.update d n (some bs)
  | remove n => Function.update d n none
  | rename src des =>
    if (d src).isSome then Function.update (Function.update d des (d src)) src none else d

def execAll (d : Disk N) (ops : List (FileOp N)) : Disk N := ops.foldl exec d

@[simp] theorem execAll_nil (d : Disk N) : execAll d [] = d := rfl

@[simp] theorem execAll_cons (d : Disk N) (o : FileOp N) (ops : List (FileOp N)) :
    execAll d (o :: ops) = execAll (exec d o) ops := rfl

/-- What a death after `k` operations leaves; the next one, if it is a write, may have
left a first part of `p` bytes. -/
def cut (d : Disk N) (ops : List (FileOp N)) (k : ℕ) (p : Option ℕ) : Disk N :=
  match ops[k]?, p with
  | some (write n bs), some p => exec (execAll d (ops.take k)) (write n (bs.take p))
  | _, _ => execAll d (ops.take k)

@[simp] theorem cut_nil (d : Disk N) (k : ℕ) (p : Option ℕ) : cut d [] k p = d := by
  simp [cut]

theorem cut_succ (d : Disk N) (o : FileOp N) (ops : List (FileOp N)) (k : ℕ) (p : Option ℕ) :
    cut d (o :: ops) (k + 1) p = cut (exec d o) ops k p := by
  simp only [cut, List.getElem?_cons_succ, List.take_succ_cons, execAll_cons]

end FileOp

end PrimaryElection.Journal
