import PrimaryElection.Framework.CenterParse

/-! When the parsers of the center are free of faults. A parser checks that a member
is there before it uses it, but uses the string of a member without a check of its
type. It is free of faults, whatever the capacity, exactly when every member that
it reads as a string is one, as far as it comes in its reading order. -/

namespace PrimaryElection.Framework

open Bytes Encoder
open Outcome (forEachCond forEachCond_and)

variable {D : Type}

def Json.IsText (j : Json D) : Prop := ∃ s, j.valuestring = some s

instance (j : Json D) : Decidable j.IsText := decidable_of_iff _ Option.isSome_iff_exists

/-- What a parser reads of a request, in order. -/
inductive Read where
  | number (name : String)
  | text (name : String)
  | texts (name : String)
  | words (name : String)

/-- An element of a word list: its word is a string, and what follows is reached if
it has a count. -/
def wordRead (x : Json D) (P : Prop) : Prop :=
  ∀ w, x.getObjectItem "word" = some w → w.IsText ∧
    ∀ c, x.getObjectItem "count" = some c → P

/-- Every string that is reached in the reading order is one. -/
def Readable (json : Json D) : List Read → Prop
  | [] => True
  | .number name :: rs => ∀ v, json.getObjectItem name = some v → Readable json rs
  | .text name :: rs => ∀ v, json.getObjectItem name = some v → v.IsText ∧ Readable json rs
  | .texts name :: rs => ∀ v, json.getObjectItem name = some v →
      (∀ x ∈ v.items, x.IsText) ∧ Readable json rs
  | .words name :: rs => ∀ v, json.getObjectItem name = some v →
      forEachCond wordRead v.items (Readable json rs)

/-- The count of members is right and what is reached is readable. -/
def SizedReadable (json : Json D) (n : ℕ) (rs : List Read) : Prop :=
  json.getArraySize = n → Readable json rs

/-- The condition on a request of each type. -/
def CenterReadable (json : Json D) : Prop :=
  ∀ type, json.getObjectItem "type" = some type →
    match type.valueint.val with
    | 1 => SizedReadable json 7 [.number "type", .number "clicktime", .text "userid", .text "docid",
        .number "staytime", .number "action", .text "location"]
    | 2 => SizedReadable json 12 [.number "type", .text "docid", .number "publictime",
        .number "pushtime", .number "power", .texts "category", .words "word", .texts "srp",
        .texts "circle", .number "topflag", .texts "topsrp", .texts "topcircle"]
    | 3 => SizedReadable json 4 [.number "type", .text "userid", .texts "circle", .texts "srp"]
    | 4 => SizedReadable json 4 [.number "type", .number "log", .text "userid", .number "requestnum"]
    | 5 => SizedReadable json 2 [.number "type", .text "heartbeat"]
    | 6 => SizedReadable json 4 [.number "type", .text "userid", .number "returnnum",
        .texts "returnlist"]
    | _ => True

/-! ### Fields -/

/-- The condition `P` is exact for what follows a piece. -/
def Exact {β : Type} (e : Enc β) (P : Prop) : Prop := ∀ len, FaultFree e len ↔ P

theorem exact_pure (u : Unit) : Exact (pure u) True := fun len => iff_true_intro (faultFree_pure u len)

theorem exact_last {e : Enc Unit} {P : Prop} (h : Exact (e >>= fun u => pure u) P) : Exact e P := by
  rwa [bind_pure] at h

variable {g : Unit → Enc Unit} {P : Prop}

theorem exact_put {bs : List UInt8} (hg : Exact (g ()) P) : Exact (put bs >>= g) P := fun len => by
  rw [faultFree_put, hg]

theorem exact_room {k full : ℤ} (hk : 0 ≤ k) (hg : Exact (g ()) P) : Exact (room k full >>= g) P :=
  fun len => by rw [faultFree_room hk, hg]

theorem exact_use {v : Json D} {f : CStr → Enc Unit} (hf : ∀ s, Exact (f s) P) :
    Exact (use v.valuestring >>= f) (v.IsText ∧ P) := by
  intro len
  rw [faultFree_use]
  simp only [fun s => hf s len, Json.IsText, exists_and_right]

theorem exact_member {json : Json D} {name : String} {missing : ℤ} {f : Json D → Enc Unit}
    {Q : Json D → Prop} (hf : ∀ v, Exact (f v) (Q v)) :
    Exact (member json name missing >>= f) (∀ v, json.getObjectItem name = some v → Q v) := by
  intro len
  rw [member, faultFree_require]
  exact forall₂_congr fun v _ => hf v len

theorem exact_recode {e : Enc Unit} {c : ℤ → ℤ} (he : Exact (e >>= g) P) : Exact (recode c e >>= g) P :=
  fun len => by rw [faultFree_recode, he]

theorem exact_forEach {f : Json D → Enc Unit} {cond : Json D → Prop → Prop}
    (hf : ∀ x (g : Unit → Enc Unit) P, Exact (g ()) P → Exact (f x >>= g) (cond x P))
    (xs : List (Json D)) (hg : Exact (g ()) P) : Exact (forEach xs f >>= g) (forEachCond cond xs P) :=
  faultFree_forEach hf xs hg

theorem exact_sizeIs {json : Json D} {n : ℕ} {wrong : ℤ} (hg : Exact (g ()) P) :
    Exact (sizeIs json n wrong >>= g) (json.getArraySize = n → P) := by
  intro len
  unfold sizeIs
  split_ifs with h
  · have hf : FaultFree (fail wrong >>= g) len := by
      intro size _
      rw [bind_of_code (rfl : fail wrong size len = ⟨[], len, .code wrong⟩)]
      simp
    exact iff_of_true hf fun he => absurd he h
  · rw [pure_bind, hg len]
    exact ⟨fun hp _ => hp, fun hp => hp (not_not.mp h)⟩

theorem exact_intField {json : Json D} {name : String} {missing full : ℤ} (hg : Exact (g ()) P) :
    Exact (intField json name missing full >>= g)
      (∀ v, json.getObjectItem name = some v → P) := by
  simp only [intField, bind_assoc]
  exact exact_member fun v => exact_room (by norm_num) (exact_put hg)

theorem exact_idField {json : Json D} {name : String} {missing full : ℤ} (hg : Exact (g ()) P) :
    Exact (idField json name missing full >>= g)
      (∀ v, json.getObjectItem name = some v → v.IsText ∧ P) := by
  simp only [idField, bind_assoc]
  exact exact_member fun v => exact_room (by norm_num) (exact_use fun s => exact_put hg)

/-! ### Lists -/

theorem exact_sized {s : CStr} {full : ℤ} (hg : Exact (g ()) P) :
    Exact (do room 4 full; put (int4 s.bytes.length); room s.bytes.length full; put s.bytes; g ()) P :=
  exact_room (by norm_num) <| exact_put <| exact_room (Int.natCast_nonneg _) <| exact_put hg

theorem exact_parseArrayItem {x : Json D} (hg : Exact (g ()) P) :
    Exact (parseArrayItem x >>= g) (x.IsText ∧ P) := by
  simp only [parseArrayItem, bind_assoc]
  exact exact_use fun s => exact_sized hg

theorem exact_parseArray {json : Json D} (hg : Exact (g ()) P) :
    Exact (parseArray json >>= g) ((∀ x ∈ json.items, x.IsText) ∧ P) := by
  simp only [parseArray, bind_assoc]
  rw [← forEachCond_and]
  exact exact_room (by norm_num) <| exact_put <|
    exact_forEach (fun x g P hg => exact_parseArrayItem hg) json.items hg

theorem exact_parseArrayObjectItem {x : Json D} (hg : Exact (g ()) P) :
    Exact (parseArrayObjectItem x >>= g) (wordRead x P) := by
  simp only [parseArrayObjectItem, bind_assoc]
  refine exact_member fun w => exact_use fun s => exact_sized (g := fun _ => _) ?_
  exact exact_member fun c => exact_room (by norm_num) (exact_put hg)

theorem exact_parseArrayObject {json : Json D} (hg : Exact (g ()) P) :
    Exact (parseArrayObject json >>= g) (forEachCond wordRead json.items P) := by
  simp only [parseArrayObject, bind_assoc]
  exact exact_room (by norm_num) <| exact_put <|
    exact_forEach (fun x g P hg => exact_parseArrayObjectItem hg) json.items hg

theorem exact_arrayField {json : Json D} {name : String} {missing bad full : ℤ}
    (hg : Exact (g ()) P) : Exact (arrayField json name missing bad full >>= g)
      (∀ v, json.getObjectItem name = some v → (∀ x ∈ v.items, x.IsText) ∧ P) := by
  simp only [arrayField, bind_assoc]
  exact exact_member fun v => exact_recode (exact_parseArray hg)

theorem exact_arrayObjectField {json : Json D} {name : String} {missing bad full : ℤ}
    (hg : Exact (g ()) P) : Exact (arrayObjectField json name missing bad full >>= g)
      (∀ v, json.getObjectItem name = some v → forEachCond wordRead v.items P) := by
  simp only [arrayObjectField, bind_assoc]
  exact exact_member fun v => exact_recode (exact_parseArrayObject hg)

/-! ### Requests -/

theorem exact_locationField {json : Json D} (hg : Exact (g ()) P) :
    Exact (locationField json >>= g)
      (∀ v, json.getObjectItem "location" = some v → v.IsText ∧ P) := by
  simp only [locationField, bind_assoc]
  exact exact_member fun v => exact_room (by norm_num) <| exact_use fun s => exact_put <|
    exact_room (Int.natCast_nonneg _) (exact_put hg)

theorem exact_heartbeatField {json : Json D} (hg : Exact (g ()) P) :
    Exact (heartbeatField json >>= g)
      (∀ v, json.getObjectItem "heartbeat" = some v → v.IsText ∧ P) := by
  simp only [heartbeatField, bind_assoc]
  exact exact_member fun v => exact_use fun s => exact_sized hg

theorem exact_pushtimeField {h : Host D} {json : Json D} (hg : Exact (g ()) P) :
    Exact (pushtimeField h json >>= g) (∀ v, json.getObjectItem "pushtime" = some v → P) := by
  simp only [pushtimeField, bind_assoc]
  exact exact_member fun v => exact_room (by norm_num) (exact_put hg)

theorem exact_powerField [Zero D] {h : Host D} {json : Json D} (hg : Exact (g ()) P) :
    Exact (powerField h json >>= g) (∀ v, json.getObjectItem "power" = some v → P) := by
  simp only [powerField, bind_assoc]
  exact exact_member fun v => exact_room (by norm_num) (exact_put hg)

theorem exact_returnItem {x : Json D} (hg : Exact (g ()) P) :
    Exact (returnItem x >>= g) (x.IsText ∧ P) := by
  simp only [returnItem, bind_assoc]
  exact exact_room (by norm_num) (exact_use fun s => exact_put hg)

theorem exact_returnlistField {json : Json D} (hg : Exact (g ()) P) :
    Exact (returnlistField json >>= g)
      (∀ v, json.getObjectItem "returnlist" = some v → (∀ x ∈ v.items, x.IsText) ∧ P) := by
  simp only [returnlistField, bind_assoc]
  refine exact_member fun v => ?_
  rw [← forEachCond_and]
  exact exact_room (by norm_num) <| exact_put <|
    exact_forEach (fun x g P hg => exact_returnItem hg) v.items hg

theorem exact_parseAction (json : Json D) :
    Exact (parseAction json) (SizedReadable json 7 [.number "type", .number "clicktime",
      .text "userid", .text "docid", .number "staytime", .number "action", .text "location"]) := by
  unfold parseAction SizedReadable
  exact exact_sizeIs <| exact_intField <| exact_intField <| exact_idField <| exact_idField <|
    exact_intField <| exact_intField <| exact_last <| exact_locationField <| exact_pure ()

theorem exact_parseDocument [Zero D] (h : Host D) (json : Json D) :
    Exact (parseDocument h json) (SizedReadable json 12 [.number "type", .text "docid",
      .number "publictime", .number "pushtime", .number "power", .texts "category", .words "word",
      .texts "srp", .texts "circle", .number "topflag", .texts "topsrp", .texts "topcircle"]) := by
  unfold parseDocument SizedReadable
  exact exact_sizeIs <| exact_intField <| exact_idField <| exact_intField <| exact_pushtimeField <|
    exact_powerField <| exact_arrayField <| exact_arrayObjectField <| exact_arrayField <|
    exact_arrayField <| exact_intField <| exact_arrayField <| exact_last <| exact_arrayField <|
    exact_pure ()

theorem exact_parseSubscribe (json : Json D) :
    Exact (parseSubscribe json) (SizedReadable json 4 [.number "type", .text "userid",
      .texts "circle", .texts "srp"]) := by
  unfold parseSubscribe SizedReadable
  exact exact_sizeIs <| exact_intField <| exact_idField <| exact_arrayField <| exact_last <|
    exact_arrayField <| exact_pure ()

theorem exact_parseRecommend (json : Json D) :
    Exact (parseRecommend json) (SizedReadable json 4 [.number "type", .number "log",
      .text "userid", .number "requestnum"]) := by
  unfold parseRecommend SizedReadable
  exact exact_sizeIs <| exact_intField <| exact_intField <| exact_idField <| exact_last <|
    exact_intField <| exact_pure ()

theorem exact_parseHeartbeat (json : Json D) :
    Exact (parseHeartbeat json) (SizedReadable json 2 [.number "type", .text "heartbeat"]) := by
  unfold parseHeartbeat SizedReadable
  exact exact_sizeIs <| exact_intField <| exact_last <| exact_heartbeatField <| exact_pure ()

theorem exact_parseFeedback (json : Json D) :
    Exact (parseFeedback json) (SizedReadable json 4 [.number "type", .text "userid",
      .number "returnnum", .texts "returnlist"]) := by
  unfold parseFeedback SizedReadable
  exact exact_sizeIs <| exact_intField <| exact_idField <| exact_intField <| exact_last <|
    exact_returnlistField <| exact_pure ()

theorem exact_parseJson [Zero D] (h : Host D) (json : Json D) :
    Exact (parseJson h json) (CenterReadable json) := by
  intro len
  unfold parseJson member CenterReadable
  rw [faultFree_require]
  refine forall₂_congr fun type _ => ?_
  generalize type.valueint.val = n
  split
  · exact exact_parseAction json len
  · exact exact_parseDocument h json len
  · exact exact_parseSubscribe json len
  · exact exact_parseRecommend json len
  · exact exact_parseHeartbeat json len
  · exact exact_parseFeedback json len
  · simp only [faultFree_fail]

end PrimaryElection.Framework
