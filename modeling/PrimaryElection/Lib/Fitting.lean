import PrimaryElection.Lib.Codec
import PrimaryElection.Lib.Encoder

/-! Encoders that write exactly what fits: where there is something to write and the
capacity holds it the encoder writes it and counts as many bytes, and otherwise it
returns a negative code with what it has written inside the capacity. There is a rule for
each way of putting encoders together. -/

namespace PrimaryElection.Encoder

variable {α β : Type}

/-- A negative code, with at most `k` bytes written. -/
structure Stops (r : Result α) (k : ℤ) : Prop where
  code : ∃ c < 0, r.out = .code c
  bytes : (r.bytes.length : ℤ) ≤ k

/-- What there is to write, if it fits. -/
def Fits (o : Option (List UInt8)) (k : ℤ) : Prop := ∃ bs, o = some bs ∧ (bs.length : ℤ) ≤ k

/-- The piece writes `o` where that fits and stops where it does not. -/
structure Writes (e : Enc Unit) (o : Option (List UInt8)) : Prop where
  ok : ∀ (size len : ℤ) bs, o = some bs → len + bs.length ≤ size →
    e size len = ⟨bs, len + bs.length, .ok ()⟩
  stops : ∀ size len : ℤ, len ≤ size → ¬ Fits o (size - len) → Stops (e size len) (size - len)

theorem bind_ok {e : Enc α} {f : α → Enc β} {size len l : ℤ} {bs : List UInt8} {a : α}
    (h : e size len = ⟨bs, l, .ok a⟩) :
    (e >>= f) size len = ⟨bs ++ (f a size l).bytes, (f a size l).len, (f a size l).out⟩ := by
  change Enc.bind e f size len = _
  unfold Enc.bind
  rw [h]

theorem Stops.bind {e : Enc α} {f : α → Enc β} {size len k : ℤ} (h : Stops (e size len) k) :
    Stops ((e >>= f) size len) k := by
  obtain ⟨⟨c, hc, hout⟩, hbytes⟩ := h
  rcases he : e size len with ⟨bs, l, out⟩
  rw [he] at hout hbytes
  obtain rfl : out = .code c := hout
  have hb : (e >>= f) size len = ⟨bs, l, .code c⟩ := by
    change Enc.bind e f size len = _
    unfold Enc.bind
    rw [he]
  rw [hb]
  exact ⟨⟨c, hc, rfl⟩, hbytes⟩

theorem writes_pure : Writes (pure ()) (some []) where
  ok size len bs h _ := by
    cases h
    exact pure_ok_iff.mpr ⟨rfl, by simp, rfl⟩
  stops size len hle hn := absurd ⟨[], rfl, by simp; omega⟩ hn

theorem writes_put {k full : ℤ} {bs : List UInt8} (hk : (bs.length : ℤ) = k) (hfull : full < 0) :
    Writes (do room k full; put bs) (some bs) where
  ok size len cs h hfit := by
    cases h
    exact bind_ok_iff.mpr ⟨[], len + k, (), bs, room_ok_iff.mpr ⟨rfl, rfl, by omega⟩,
      put_ok_iff.mpr ⟨rfl, by omega⟩, rfl⟩
  stops size len hle hn := by
    have hlt : ¬ (bs.length : ℤ) ≤ size - len := fun hc => hn ⟨bs, rfl, hc⟩
    have hroom : room k full size len = ⟨[], len + k, .code full⟩ := if_pos (by omega)
    refine Stops.bind ?_
    rw [hroom]
    exact ⟨⟨full, hfull, rfl⟩, by simp; omega⟩

theorem Writes.seq {e f : Enc Unit} {o o' : Option (List UInt8)} (he : Writes e o) (hf : Writes f o') :
    Writes (do e; f) (o.bind fun bs => o'.map fun cs => bs ++ cs) where
  ok size len bs h hfit := by
    obtain ⟨bs₁, h₁, h⟩ := Option.bind_eq_some_iff.mp h
    obtain ⟨bs₂, h₂, rfl⟩ := Option.map_eq_some_iff.mp h
    rw [List.length_append] at hfit
    push_cast at hfit
    rw [bind_ok (he.ok size len bs₁ h₁ (by omega)), hf.ok size _ bs₂ h₂ (by omega)]
    simp [add_assoc]
  stops size len hle hn := by
    by_cases hfit : Fits o (size - len)
    · obtain ⟨bs₁, h₁, hlen⟩ := hfit
      have hrest : ¬ Fits o' (size - (len + bs₁.length)) := by
        rintro ⟨bs₂, h₂, hl⟩
        refine hn ⟨bs₁ ++ bs₂, by rw [h₁, h₂]; rfl, ?_⟩
        rw [List.length_append]
        push_cast
        omega
      obtain ⟨hcode, hbytes⟩ := hf.stops size (len + bs₁.length) (by omega) hrest
      rw [bind_ok (he.ok size len bs₁ h₁ (by omega))]
      refine ⟨hcode, ?_⟩
      rw [List.length_append]
      push_cast
      omega
    · exact (he.stops size len hle hfit).bind

theorem Writes.last {e : Enc Unit} {o : Option (List UInt8)} (he : Writes e o) :
    Writes e (o.bind fun bs => (some []).map fun cs => bs ++ cs) := by
  have h := he.seq writes_pure
  rwa [bind_pure] at h

theorem Writes.behind {e : Enc Unit} {k full : ℤ} {bs : List UInt8} {o : Option (List UInt8)}
    (he : Writes e o) (hk : (bs.length : ℤ) = k) (hfull : full < 0) :
    Writes (do room k full; put bs; e) (o.map fun cs => bs ++ cs) := by
  have h := (writes_put hk hfull).seq he
  rw [bind_assoc] at h
  exact h

theorem writes_require {o : Option α} {missing : ℤ} {f : α → Enc Unit} {g : α → Option (List UInt8)}
    (hm : missing < 0) (hf : ∀ a, o = some a → Writes (f a) (g a)) :
    Writes (require o missing >>= f) (o.bind g) := by
  cases o with
  | none =>
    refine ⟨fun _ _ _ h => (nomatch h), fun size len hle _ => Stops.bind ?_⟩
    exact ⟨⟨missing, hm, rfl⟩, by simp [require]; omega⟩
  | some a => exact hf a rfl

theorem writes_use {o : Option α} {a : α} {f : α → Enc Unit} {w : Option (List UInt8)} (ha : o = some a)
    (hf : Writes (f a) w) : Writes (use o >>= f) w := by
  cases ha
  exact hf

theorem writes_check {p : Prop} [Decidable p] {wrong : ℤ} {e : Enc Unit} {o : Option (List UInt8)}
    (hw : wrong < 0) (he : Writes e o) :
    Writes (do (if p then fail wrong else pure () : Enc Unit); e) (if p then none else o) := by
  split_ifs
  · refine ⟨fun _ _ _ h => (nomatch h), fun size len hle _ => Stops.bind ?_⟩
    exact ⟨⟨wrong, hw, rfl⟩, by simp [fail]; omega⟩
  · exact he

theorem Writes.recode {e : Enc Unit} {o : Option (List UInt8)} {g : ℤ → ℤ} (hg : ∀ c < 0, g c < 0)
    (he : Writes e o) : Writes (recode g e) o where
  ok size len bs h hfit := by
    unfold Encoder.recode
    rw [he.ok size len bs h hfit]
  stops size len hle hn := by
    obtain ⟨⟨c, hc, hout⟩, hbytes⟩ := he.stops size len hle hn
    unfold Encoder.recode
    rcases hr : e size len with ⟨bs, l, out⟩
    rw [hr] at hout hbytes
    obtain rfl : out = .code c := hout
    exact ⟨⟨g c, hg c hc, rfl⟩, hbytes⟩

/-- What a loop writes: all of its pieces, if there is something for each. -/
def piecesOf (g : α → Option (List UInt8)) : List α → Option (List UInt8)
  | [] => some []
  | x :: xs => (g x).bind fun bs => (piecesOf g xs).map fun cs => bs ++ cs

theorem writes_forEach {f : α → Enc Unit} {g : α → Option (List UInt8)} {xs : List α}
    (hf : ∀ x ∈ xs, Writes (f x) (g x)) : Writes (forEach xs f) (piecesOf g xs) := by
  induction xs with
  | nil => exact writes_pure
  | cons x xs ih =>
    exact (hf x List.mem_cons_self).seq (ih fun y hy => hf y (List.mem_cons_of_mem _ hy))

/-! ### Lists of a codec's values -/

open Bytes

theorem mapM_cons_eq_some {read : α → Option β} {x : α} {xs : List α} {vs : List β} :
    (x :: xs).mapM read = some vs ↔
      ∃ v vs', read x = some v ∧ xs.mapM read = some vs' ∧ v :: vs' = vs := by
  rw [List.mapM_cons]
  simp only [Option.bind_eq_bind, Option.bind_eq_some_iff, Option.pure_def, Option.some.injEq]
  constructor
  · rintro ⟨v, hv, vs', hvs, rfl⟩
    exact ⟨v, vs', hv, hvs, rfl⟩
  · rintro ⟨v, vs', hv, hvs, rfl⟩
    exact ⟨v, hv, vs', hvs, rfl⟩

theorem exists_mapM {read : α → Option β} {xs : List α} (h : ∀ x ∈ xs, ∃ v, read x = some v) :
    ∃ vs, xs.mapM read = some vs := by
  induction xs with
  | nil => exact ⟨[], rfl⟩
  | cons x xs ih =>
    obtain ⟨v, hv⟩ := h x List.mem_cons_self
    obtain ⟨vs, hvs⟩ := ih fun y hy => h y (List.mem_cons_of_mem _ hy)
    exact ⟨v :: vs, mapM_cons_eq_some.mpr ⟨v, vs, hv, hvs, rfl⟩⟩

theorem mapM_length {read : α → Option β} {xs : List α} {vs : List β} (h : xs.mapM read = some vs) :
    vs.length = xs.length := by
  induction xs generalizing vs with
  | nil =>
    cases h
    rfl
  | cons x xs ih =>
    obtain ⟨v, vs', -, hvs, rfl⟩ := mapM_cons_eq_some.mp h
    rw [List.length_cons, List.length_cons, ih hvs]

/-- Every value is that of an element. -/
theorem mapM_mem {read : α → Option β} {xs : List α} {vs : List β} (h : xs.mapM read = some vs) :
    ∀ v ∈ vs, ∃ x ∈ xs, read x = some v := by
  induction xs generalizing vs with
  | nil =>
    cases h
    exact fun v hv => absurd hv List.not_mem_nil
  | cons x xs ih =>
    obtain ⟨v, vs', hv, hvs, rfl⟩ := mapM_cons_eq_some.mp h
    refine List.forall_mem_cons.mpr ⟨⟨x, List.mem_cons_self, hv⟩, fun u hu => ?_⟩
    obtain ⟨y, hy, hyu⟩ := ih hvs u hu
    exact ⟨y, List.mem_cons_of_mem _ hy, hyu⟩

/-- Elements that all have a value of known length. -/
theorem mapM_size {read : α → Option β} {enc : β → List UInt8} {size : α → ℕ} {xs : List α}
    {vs : List β} (hsize : ∀ x v, read x = some v → (enc v).length = size x)
    (h : xs.mapM read = some vs) :
    (∀ x ∈ xs, ∃ v, read x = some v) ∧ (vs.flatMap enc).length = (xs.map size).sum := by
  induction xs generalizing vs with
  | nil =>
    cases h
    exact ⟨fun x hx => absurd hx List.not_mem_nil, rfl⟩
  | cons x xs ih =>
    obtain ⟨v, vs', hv, hvs, rfl⟩ := mapM_cons_eq_some.mp h
    obtain ⟨hall, hlen⟩ := ih hvs
    refine ⟨List.forall_mem_cons.mpr ⟨⟨v, hv⟩, hall⟩, ?_⟩
    rw [List.flatMap_cons, List.length_append, hsize x v hv, hlen, List.map_cons, List.sum_cons]

/-- The pieces of a list's values are its encoding behind the count. -/
theorem pieces_values {read : α → Option β} (c : Codec β) {xs : List α} :
    piecesOf (fun x => (read x).map c.encode) xs = (xs.mapM read).map fun vs => vs.flatMap c.encode := by
  induction xs with
  | nil => rfl
  | cons x xs ih =>
    rw [piecesOf, ih, List.mapM_cons]
    cases read x with
    | none => rfl
    | some v => cases xs.mapM read <;> rfl

theorem int4_cast_length (x : ℤ) : ((int4 x).length : ℤ) = 4 := by
  rw [int4_length]
  rfl

/-- num(4) and the elements. -/
theorem writes_list {f : α → Enc Unit} {read : α → Option β} {c : Codec β} {full : ℤ}
    (hc : ∀ b, 0 < (c.encode b).length) {xs : List α} (hf : full < 0)
    (hx : ∀ x ∈ xs, Writes (f x) ((read x).map c.encode)) :
    Writes (do room 4 full; put (int4 xs.length); forEach xs f)
      ((xs.mapM read).map (c.counted hc).encode) := by
  have h := (writes_forEach hx).behind (int4_cast_length xs.length) hf
  rw [pieces_values c, Option.map_map] at h
  have hbytes : (xs.mapM read).map ((fun cs => int4 xs.length ++ cs) ∘ fun vs => vs.flatMap c.encode) =
      (xs.mapM read).map (c.counted hc).encode := by
    cases hvs : xs.mapM read with
    | none => rfl
    | some vs =>
      rw [Option.map_some, Option.map_some, ← mapM_length hvs]
      rfl
  rwa [hbytes] at h

end PrimaryElection.Encoder
