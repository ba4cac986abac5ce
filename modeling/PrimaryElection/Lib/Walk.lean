import PrimaryElection.Lib.Memory

/-! Programs that walk a pointer over a buffer and emit what they find there. An access
outside the buffer has no result. A program reads a byte string if, from wherever that
lies at the pointer with a byte more behind it, it ends behind the string, has left the
memory as it was, and has accessed nothing beyond the end of what is known. -/

namespace PrimaryElection.Walk

open CInt Bytes Memory

variable {ω α β : Type}

structure State (ω : Type) where
  mem : Mem
  ptr : ℤ
  out : List ω
  touched : List Span

/-- A program on a buffer of the given size. -/
def Prog (ω α : Type) := ℤ → State ω → Option (α × State ω)

instance : Monad (Prog ω) where
  pure a := fun _ s => some (a, s)
  bind p f := fun size s => (p size s).bind fun r => f r.1 size r.2

/-! ### Primitives -/

/-- Access `n` bytes at an offset. -/
def touch (off : ℤ) (n : ℕ) : Prog ω Unit := fun size s =>
  if Span.Inside ⟨s.ptr + off, n⟩ 0 size then
    some ((), { s with touched := s.touched ++ [⟨s.ptr + off, n⟩] })
  else none

/-- What a function finds in the memory at the pointer. -/
def find (f : Mem → ℤ → α) : Prog ω α := fun _ s => some (f s.mem s.ptr, s)

def put (off : ℤ) (bs : List UInt8) : Prog ω Unit := fun _ s =>
  some ((), { s with mem := (⟨s.ptr + off, bs⟩ : Store).apply s.mem })

def readInt (off : ℤ) : Prog ω ℤ := do
  touch off 4
  find fun m ptr => loadInt m (ptr + off)

def readWord8 (off : ℤ) : Prog ω UInt64 := do
  touch off 8
  find fun m ptr => word8Val (load m (ptr + off) 8)

def readByte (off : ℤ) : Prog ω UInt8 := do
  touch off 1
  find fun m ptr => m (ptr + off)

def writeByte (off : ℤ) (b : UInt8) : Prog ω Unit := do
  touch off 1
  put off [b]

/-- The bytes at the pointer before the first zero, which is read too. -/
def readString : Prog ω (List UInt8) := fun size s =>
  let text := (load s.mem s.ptr (size - s.ptr).toNat).takeWhile (· ≠ 0)
  ((touch 0 (text.length + 1)) size s).map fun r => (text, r.2)

def emit (ws : List ω) : Prog ω Unit := fun _ s => some ((), { s with out := s.out ++ ws })

def advance (k : ℤ) : Prog ω Unit := fun _ s => some ((), { s with ptr := s.ptr + k })

def rounds : ℕ → Prog ω Unit → Prog ω Unit
  | 0, _ => pure ()
  | n + 1, p => do p; rounds n p

/-! ### Known bytes -/

def Holds (m : Mem) (a : ℤ) (bs : List UInt8) : Prop := load m a bs.length = bs

theorem holds_append {m : Mem} {a : ℤ} {bs cs : List UInt8} :
    Holds m a (bs ++ cs) ↔ Holds m a bs ∧ Holds m (a + bs.length) cs := by
  unfold Holds
  rw [List.length_append, load_add]
  exact ⟨fun h => List.append_inj h (load_length _ _ _), fun h => by rw [h.1, h.2]⟩

/-- Over the bytes at the pointer the program returns a value and emits, and moves by
`k`. -/
def Walks (k : ℕ) (p : Prog ω α) (bs : List UInt8) (a : α) (ws : List ω) : Prop :=
  ∀ (size last : ℤ) (s : State ω), last ≤ size → 0 ≤ s.ptr → s.ptr + bs.length < last →
    Holds s.mem s.ptr bs → ∃ spans,
      p size s = some (a, ⟨s.mem, s.ptr + k, s.out ++ ws, s.touched ++ spans⟩) ∧
        ∀ sp ∈ spans, sp.Inside 0 last

/-- The program stays where it is. -/
abbrev Peeks (p : Prog ω α) (bs : List UInt8) (a : α) (ws : List ω) : Prop := Walks 0 p bs a ws

/-- The program ends behind the bytes. -/
abbrev Reads (p : Prog ω α) (bs : List UInt8) (a : α) (ws : List ω) : Prop :=
  Walks bs.length p bs a ws

variable {p : Prog ω α} {f : α → Prog ω β} {bs cs : List UInt8} {a : α} {b : β} {ws vs : List ω}

/-- A program that moves by `k`, and one that goes on from there. -/
theorem walks_bind {k l : ℕ} (hk : bs.length = k) (hp : Walks k p (bs ++ cs) a ws)
    (hf : Walks l (f a) cs b vs) : Walks (k + l) (p >>= f) (bs ++ cs) b (ws ++ vs) := by
  subst hk
  intro size last s hsize hptr hlast hm
  obtain ⟨spans, hrun, hin⟩ := hp size last s hsize hptr hlast hm
  obtain ⟨hbs, hcs⟩ := holds_append.mp hm
  rw [List.length_append] at hlast
  push_cast at hlast
  obtain ⟨spans', hrun', hin'⟩ := hf size last
    ⟨s.mem, s.ptr + bs.length, s.out ++ ws, s.touched ++ spans⟩ hsize (by dsimp only; omega)
    (by dsimp only; omega) hcs
  refine ⟨spans ++ spans', ?_, fun sp hsp => ?_⟩
  · change (p size s).bind _ = _
    rw [hrun, Option.bind_some, hrun']
    push_cast
    simp only [List.append_assoc, add_assoc]
  · rcases List.mem_append.mp hsp with h | h
    · exact hin sp h
    · exact hin' sp h

/-- What a program needs not know may follow. -/
theorem Walks.append {k : ℕ} (h : Walks k p bs a ws) (cs : List UInt8) :
    Walks k p (bs ++ cs) a ws := by
  intro size last s hsize hptr hlast hm
  rw [List.length_append] at hlast
  push_cast at hlast
  exact h size last s hsize hptr (by omega) (holds_append.mp hm).1

theorem reads_peek (hp : Peeks p bs a ws) (hf : Reads (f a) bs b vs) :
    Reads (p >>= f) bs b (ws ++ vs) := by
  have h : Walks (0 + bs.length) (p >>= f) ([] ++ bs) b (ws ++ vs) := walks_bind rfl hp hf
  rwa [zero_add] at h

theorem reads_seq (hp : Reads p bs a ws) (hf : Reads (f a) cs b vs) :
    Reads (p >>= f) (bs ++ cs) b (ws ++ vs) := by
  have h := walks_bind rfl (hp.append cs) hf
  rwa [← List.length_append] at h

/-- A program that reads a prefix, and one that stays behind it. -/
theorem reads_pass (hp : Reads p bs a ws) (hf : Reads (f a) [] b vs) :
    Reads (p >>= f) bs b (ws ++ vs) := by
  have h := reads_seq hp hf
  rwa [List.append_nil] at h

/-- What is looked at first is not printed. -/
theorem reads_look (hp : Peeks p bs a []) (hf : Reads (f a) bs b vs) : Reads (p >>= f) bs b vs :=
  reads_peek hp hf

theorem reads_skip (hp : Reads p bs a []) (hf : Reads (f a) cs b vs) :
    Reads (p >>= f) (bs ++ cs) b vs := reads_seq hp hf

theorem reads_leave (hp : Peeks p bs a ws) (hf : Reads (f a) bs b []) : Reads (p >>= f) bs b ws := by
  have h := reads_peek hp hf
  rwa [List.append_nil] at h

/-! ### The primitives over known bytes -/

theorem run_bind (p : Prog ω α) (f : α → Prog ω β) (size : ℤ) (s : State ω) :
    (p >>= f) size s = (p size s).bind fun r => f r.1 size r.2 := rfl

theorem touch_eq {off size : ℤ} {n : ℕ} {s : State ω} (h : Span.Inside ⟨s.ptr + off, n⟩ 0 size) :
    touch off n size s = some ((), { s with touched := s.touched ++ [⟨s.ptr + off, n⟩] }) := if_pos h

theorem peeks_load (val : List UInt8 → α) {pre mid : List UInt8} {off : ℤ} {n : ℕ}
    (hoff : off = pre.length) (hn : n = mid.length) :
    Peeks (ω := ω) (do touch off n; find fun m ptr => val (load m (ptr + off) n)) (pre ++ mid) (val mid) [] := by
  subst hoff hn
  intro size last s hsize hptr hlast hm
  rw [List.length_append] at hlast
  push_cast at hlast
  refine ⟨[⟨s.ptr + pre.length, mid.length⟩], ?_, ?_⟩
  · have hin : Span.Inside ⟨s.ptr + pre.length, mid.length⟩ 0 size :=
      ⟨by dsimp only; omega, by dsimp only; omega⟩
    have hmid : load s.mem (s.ptr + pre.length) mid.length = mid := (holds_append.mp hm).2
    rw [run_bind, touch_eq hin, Option.bind_some]
    simp [find, hmid]
  · rintro sp hsp
    rw [List.mem_singleton.mp hsp]
    exact ⟨by dsimp only; omega, by dsimp only; omega⟩

theorem peeks_readInt {pre : List UInt8} {off x : ℤ} (hoff : off = pre.length)
    (h₁ : -2147483648 ≤ x) (h₂ : x < 2147483648) :
    Peeks (ω := ω) (readInt off) (pre ++ int4 x) x [] := by
  have h := peeks_load (ω := ω) int4Val hoff (int4_length x).symm
  rwa [int4Val_int4 h₁ h₂] at h

theorem peeks_int (x : I32) : Peeks (ω := ω) (readInt 0) (int4 x) x.val [] := by
  rw [← List.nil_append (int4 x)]
  exact peeks_readInt rfl x.property.1 x.property.2

/-- A size in front of what it is the size of. -/
theorem peeks_count {n : ℕ} (hn : n < 2147483648) : Peeks (ω := ω) (readInt 0) (int4 n) n [] :=
  peeks_int ⟨n, by omega, by omega⟩

theorem peeks_readWord8 {pre : List UInt8} {off : ℤ} (hoff : off = pre.length) (v : UInt64) :
    Peeks (ω := ω) (readWord8 off) (pre ++ word8 v) v [] := by
  have h := peeks_load (ω := ω) word8Val hoff (word8_length v).symm
  rwa [word8Val_word8] at h

theorem reads_pure : Reads (ω := ω) (pure a) [] a [] := by
  intro size last s _ _ _ _
  exact ⟨[], by simp [pure], by simp⟩

theorem peeks_emit : Peeks (emit ws) bs () ws := by
  intro size last s _ _ _ _
  exact ⟨[], by simp [emit], by simp⟩

theorem reads_advance {k : ℤ} (hk : k = bs.length) : Reads (ω := ω) (advance k) bs () [] := by
  subst hk
  intro size last s _ _ _ _
  exact ⟨[], by simp [advance], by simp⟩

/-- One round for each of the values. -/
theorem reads_rounds {γ : Type} {p : Prog ω Unit} {enc : γ → List UInt8} {text : γ → List ω}
    {as : List γ} (h : ∀ a ∈ as, Reads p (enc a) () (text a)) :
    Reads (rounds as.length p) (as.flatMap enc) () (as.flatMap text) := by
  induction as with
  | nil => exact reads_pure
  | cons a as ih =>
    rw [List.flatMap_cons, List.flatMap_cons, List.length_cons, rounds]
    exact reads_seq (h a List.mem_cons_self) (ih fun b hb => h b (List.mem_cons_of_mem _ hb))

/-! ### A zero behind a string -/

/-- Put back what was there. -/
theorem store_restore (m : Mem) (a : ℤ) (b : UInt8) :
    (⟨a, [m a]⟩ : Store).apply ((⟨a, [b]⟩ : Store).apply m) = m := by
  funext x
  by_cases hx : x = a
  · subst hx
    simp [Store.apply]
  · have hout : ∀ c : UInt8, x ∉ Store.footprint ⟨a, [c]⟩ := by
      rintro c ⟨h₁, h₂⟩
      simp only [List.length_singleton] at h₁ h₂
      omega
    rw [Store.apply_of_notMem (hout _), Store.apply_of_notMem (hout _)]

theorem takeWhile_zero {s : List UInt8} (h : 0 ∉ s) (rest : List UInt8) :
    (s ++ 0 :: rest).takeWhile (· ≠ 0) = s := by
  have hs : ∀ b ∈ s, decide (b ≠ 0) = true := fun b hb => decide_eq_true (ne_of_mem_of_not_mem hb h)
  rw [List.takeWhile_append_of_pos hs]
  simp

/-- Put a zero at an offset while a program runs. -/
def withZero (off : ℤ) (p : Prog ω Unit) : Prog ω Unit := do
  let chr ← readByte off
  writeByte off 0
  p
  writeByte off chr

section

variable {m : Mem} {ptr off size : ℤ} {out : List ω} {ts : List Span}

theorem readByte_eq (h : Span.Inside ⟨ptr + off, 1⟩ 0 size) :
    readByte off size ⟨m, ptr, out, ts⟩ = some (m (ptr + off), ⟨m, ptr, out, ts ++ [⟨ptr + off, 1⟩]⟩) := by
  rw [readByte, run_bind, touch_eq h]
  rfl

theorem writeByte_eq {b : UInt8} (h : Span.Inside ⟨ptr + off, 1⟩ 0 size) :
    writeByte off b size ⟨m, ptr, out, ts⟩ =
      some ((), ⟨(⟨ptr + off, [b]⟩ : Store).apply m, ptr, out, ts ++ [⟨ptr + off, 1⟩]⟩) := by
  rw [writeByte, run_bind, touch_eq h]
  rfl

theorem readString_eq {s : List UInt8} (h : 0 ∉ s) (hin : Span.Inside ⟨ptr, s.length + 1⟩ 0 size)
    (hm : Holds m ptr (s ++ [0])) :
    readString size ⟨m, ptr, out, ts⟩ = some (s, ⟨m, ptr, out, ts ++ [⟨ptr + 0, s.length + 1⟩]⟩) := by
  obtain ⟨k, hk⟩ : ∃ k, (size - ptr).toNat = (s ++ [0]).length + k := by
    obtain ⟨-, hhi⟩ := hin
    rw [List.length_append, List.length_singleton]
    exact Nat.exists_eq_add_of_le (by dsimp only at hhi; omega)
  have htext : (load m ptr (size - ptr).toNat).takeWhile (· ≠ 0) = s := by
    unfold Holds at hm
    rw [hk, load_add, hm, List.append_assoc]
    exact takeWhile_zero h _
  simp only [readString, htext]
  rw [touch_eq (by rwa [add_zero]), Option.map_some]

end

/-- A string is found with a zero behind it, and the byte there put back. -/
theorem peeks_string {f : List UInt8 → List ω} {s : List UInt8} (h : 0 ∉ s) :
    Peeks (withZero s.length (do let t ← readString; emit (f t))) s () (f s) := by
  rintro size last ⟨m, ptr, out, ts⟩ hsize hptr hlast hm
  dsimp only at hptr hlast hm
  have hin : Span.Inside ⟨ptr + s.length, 1⟩ 0 size := ⟨by dsimp only; omega, by dsimp only; omega⟩
  have hstr : Span.Inside ⟨ptr, s.length + 1⟩ 0 size := ⟨hptr, by dsimp only; push_cast; omega⟩
  have hzero : Holds ((⟨ptr + s.length, [0]⟩ : Store).apply m) ptr (s ++ [0]) := by
    refine holds_append.mpr ⟨?_, load_store_self ⟨ptr + s.length, [0]⟩ m⟩
    exact (load_store_of_disjoint (.inl le_rfl)).trans hm
  refine ⟨[⟨ptr + s.length, 1⟩, ⟨ptr + s.length, 1⟩, ⟨ptr + 0, s.length + 1⟩, ⟨ptr + s.length, 1⟩],
    ?_, ?_⟩
  · rw [withZero, run_bind, readByte_eq hin, Option.bind_some, run_bind, writeByte_eq hin,
      Option.bind_some, run_bind, run_bind, readString_eq h hstr hzero, Option.bind_some, emit,
      Option.bind_some, writeByte_eq hin, store_restore]
    simp
  · intro sp hsp
    simp only [List.mem_cons, List.not_mem_nil, or_false] at hsp
    rcases hsp with rfl | rfl | rfl | rfl <;>
      exact ⟨by dsimp only; omega, by dsimp only; push_cast; omega⟩

end PrimaryElection.Walk
