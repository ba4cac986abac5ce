import PrimaryElection.Framework.RequestFormat

/-! What the six encoders of the center write: the fields of the request's format, if
the count of members is right, all of them are there and the capacity holds them. -/

namespace PrimaryElection.Framework

open CInt Bytes Encoder

variable {D : Type}

/-- The member is a string, or a list of strings or of entries with a string as the word,
where the field needs one. -/
def FieldKind.Typed : FieldKind → Json D → Prop
  | .id, v => v.IsText
  | .text, v => v.IsText
  | .texts, v => ∀ x ∈ v.items, x.IsText
  | .words, v => ∀ x ∈ v.items, ∀ w, x.getObjectItem "word" = some w → w.IsText
  | .ids, v => ∀ x ∈ v.items, x.IsText
  | _, _ => True

/-- The members that are there have the types that the fields need. -/
def WellTyped (json : Json D) (fs : List Field) : Prop :=
  ∀ f ∈ fs, ∀ v, json.getObjectItem f.name = some v → f.kind.Typed v

instance : (k : FieldKind) → (v : Json D) → Decidable (k.Typed v)
  | .id, v | .text, v => inferInstanceAs (Decidable v.IsText)
  | .texts, v | .ids, v => inferInstanceAs (Decidable (∀ x ∈ v.items, x.IsText))
  | .words, v =>
    inferInstanceAs (Decidable (∀ x ∈ v.items, ∀ w, x.getObjectItem "word" = some w → w.IsText))
  | .int, _ | .clock, _ | .float, _ => inferInstanceAs (Decidable True)

instance (json : Json D) (fs : List Field) : Decidable (WellTyped json fs) :=
  inferInstanceAs (Decidable (∀ f ∈ fs, _))

def fieldBytes [Zero D] (h : Host D) (json : Json D) (f : Field) : Option (List UInt8) :=
  (fieldValue h json f).map f.kind.codec.encode

/-- The fields one behind another are the request in its format. -/
theorem piecesOf_fields [Zero D] (h : Host D) (json : Json D) (fs : List Field) :
    piecesOf (fieldBytes h json) fs = (fieldValues h json fs).map (codecOf fs).encode := by
  induction fs with
  | nil => rfl
  | cons f fs ih =>
    rw [piecesOf, ih, fieldBytes]
    cases hv : fieldValue h json f with
    | none => rw [fieldValues, hv]; rfl
    | some v =>
      have hvs : fieldValues h json (f :: fs) = (fieldValues h json fs).map fun vs => (v, vs) := by
        rw [fieldValues, hv]
        cases fieldValues h json fs <;> rfl
      rw [hvs]
      cases fieldValues h json fs <;> rfl

theorem fieldBytes_eq [Zero D] {h : Host D} {json : Json D} {f : Field} :
    fieldBytes h json f = (json.getObjectItem f.name).bind fun v =>
      (f.kind.read h v).map f.kind.codec.encode := by
  unfold fieldBytes fieldValue
  cases json.getObjectItem f.name <;> rfl

/-! ### Strings and elements -/

theorem word8_cast_length (v : UInt64) : ((word8 v).length : ℤ) = 8 := by
  rw [word8_length]
  rfl

/-- A string that is there is the same value before and behind the room of its size. -/
theorem use_text {v : Json D} {s : CStr} (hs : v.valuestring = some s) :
    (use v.valuestring : Enc CStr) = pure s := by
  rw [hs]
  rfl

/-- size(4) string(size), with the length used before the room of the size or after. -/
theorem writes_sized (s : CStr) {full : ℤ} (hf : full < 0) :
    Writes (do room 4 full; put (int4 s.bytes.length); room s.bytes.length full; put s.bytes)
      (some (Codec.sized.encode s.bytes)) :=
  (writes_put rfl hf).behind (int4_cast_length _) hf

theorem writes_parseArrayItem {x : Json D} (ht : x.IsText) :
    Writes (parseArrayItem x) ((textOf x).map Codec.sized.encode) := by
  obtain ⟨s, hs⟩ := ht
  have hread : (textOf x).map Codec.sized.encode = some (Codec.sized.encode s.bytes) := by
    rw [textOf, hs]
    rfl
  rw [hread]
  exact writes_use hs (writes_sized s (by norm_num))

theorem writes_parseArrayObjectItem {x : Json D}
    (ht : ∀ w, x.getObjectItem "word" = some w → w.IsText) :
    Writes (parseArrayObjectItem x) ((wordOf x).map (Codec.sized.pair Codec.int).encode) := by
  have hread : (wordOf x).map (Codec.sized.pair Codec.int).encode =
      (x.getObjectItem "word").bind fun w => (w.valuestring).bind fun s =>
        ((x.getObjectItem "count").bind fun c => some (int4 c.valueint.val)).map fun cs =>
          Codec.sized.encode s.bytes ++ cs := by
    unfold wordOf textOf
    cases x.getObjectItem "word" with
    | none => rfl
    | some w =>
      cases hw : w.valuestring with
      | none => simp [hw]
      | some s => cases x.getObjectItem "count" <;> simp [hw, Codec.pair, Codec.int, Codec.word]
  rw [hread]
  refine writes_require (by norm_num) fun w hw => ?_
  obtain ⟨s, hs⟩ := ht w hw
  rw [hs, Option.bind_some]
  refine writes_use rfl ?_
  have hcount : Writes (do
      let c ← member x "count" (-1)
      room 4 (-2)
      put (int4 c.valueint)) ((x.getObjectItem "count").bind fun c => some (int4 c.valueint.val)) :=
    writes_require (by norm_num) fun c _ => writes_put (int4_cast_length _) (by norm_num)
  have hall := (writes_sized s (by norm_num : (-2 : ℤ) < 0)).seq hcount
  simp only [bind_assoc] at hall
  exact hall

theorem writes_returnItem {x : Json D} (ht : x.IsText) :
    Writes (returnItem x) ((idOf x).map Codec.id8.encode) := by
  obtain ⟨s, hs⟩ := ht
  have hread : (idOf x).map Codec.id8.encode = some (word8 (strtoul s.bytes)) := by
    rw [idOf, hs]
    rfl
  rw [hread, returnItem]
  simp only [use_text hs, pure_bind]
  exact writes_put (word8_cast_length _) (by norm_num)

theorem listCode_neg {bad full : ℤ} (hb : bad < 0) (hf : full < 0) : ∀ c < 0, listCode bad full c < 0 := by
  intro c hc
  unfold listCode
  split_ifs <;> assumption

/-! ### Fields -/

section

variable [Zero D] {h : Host D} {json : Json D} {name : String} {missing bad full : ℤ}

theorem writes_intField (hm : missing < 0) (hf : full < 0) :
    Writes (intField json name missing full) (fieldBytes h json ⟨name, .int⟩) := by
  rw [fieldBytes_eq]
  exact writes_require hm fun v _ => writes_put (int4_cast_length _) hf

theorem int4_i32 (x : ℤ) : int4 (i32 x).val = int4 x := by
  have hm : (i32 x).val % 4294967296 = x % 4294967296 := by
    rw [i32_val]
    exact Int.bmod_emod
  rw [int4, int4, hm]

theorem writes_pushtimeField : Writes (pushtimeField h json) (fieldBytes h json ⟨"pushtime", .clock⟩) := by
  rw [fieldBytes_eq]
  refine writes_require (by norm_num) fun v _ => ?_
  have hbytes : ((FieldKind.clock.read h v).map FieldKind.clock.codec.encode) = some (int4 h.now) :=
    congrArg some (int4_i32 h.now)
  rw [hbytes]
  exact writes_put (int4_cast_length _) (by norm_num)

theorem writes_powerField : Writes (powerField h json) (fieldBytes h json ⟨"power", .float⟩) := by
  rw [fieldBytes_eq]
  exact writes_require (by norm_num) fun v _ =>
    writes_put (by rw [leBytes_length]; rfl) (by norm_num)

theorem writes_idField (hm : missing < 0) (hf : full < 0)
    (ht : ∀ v, json.getObjectItem name = some v → v.IsText) :
    Writes (idField json name missing full) (fieldBytes h json ⟨name, .id⟩) := by
  rw [fieldBytes_eq]
  refine writes_require hm fun v hv => ?_
  obtain ⟨s, hs⟩ := ht v hv
  have hread : (FieldKind.id.read h v).map FieldKind.id.codec.encode = some (word8 (strtoul s.bytes)) := by
    simp only [FieldKind.read, idOf, hs]
    rfl
  rw [hread]
  simp only [use_text hs, pure_bind]
  exact writes_put (word8_cast_length _) hf

theorem read_text {v : Json D} {s : CStr} (hs : v.valuestring = some s) :
    (FieldKind.text.read h v).map FieldKind.text.codec.encode = some (Codec.sized.encode s.bytes) := by
  simp only [FieldKind.read, textOf, hs]
  rfl

theorem writes_locationField (ht : ∀ v, json.getObjectItem "location" = some v → v.IsText) :
    Writes (locationField json) (fieldBytes h json ⟨"location", .text⟩) := by
  rw [fieldBytes_eq]
  refine writes_require (by norm_num) fun v hv => ?_
  obtain ⟨s, hs⟩ := ht v hv
  rw [read_text hs]
  simp only [use_text hs, pure_bind]
  exact writes_sized s (by norm_num)

theorem writes_heartbeatField (ht : ∀ v, json.getObjectItem "heartbeat" = some v → v.IsText) :
    Writes (heartbeatField json) (fieldBytes h json ⟨"heartbeat", .text⟩) := by
  rw [fieldBytes_eq]
  refine writes_require (by norm_num) fun v hv => ?_
  obtain ⟨s, hs⟩ := ht v hv
  rw [read_text hs]
  exact writes_use hs (writes_sized s (by norm_num))

/-! ### Lists -/

theorem writes_arrayField (hm : missing < 0) (hb : bad < 0) (hf : full < 0)
    (ht : ∀ v, json.getObjectItem name = some v → ∀ x ∈ v.items, x.IsText) :
    Writes (arrayField json name missing bad full) (fieldBytes h json ⟨name, .texts⟩) := by
  rw [fieldBytes_eq]
  refine writes_require hm fun v hv => Writes.recode (listCode_neg hb hf) ?_
  exact writes_list FieldKind.sized_pos (by norm_num) fun x hx => writes_parseArrayItem (ht v hv x hx)

theorem writes_arrayObjectField (hm : missing < 0) (hb : bad < 0) (hf : full < 0)
    (ht : ∀ v, json.getObjectItem name = some v →
      ∀ x ∈ v.items, ∀ w, x.getObjectItem "word" = some w → w.IsText) :
    Writes (arrayObjectField json name missing bad full) (fieldBytes h json ⟨name, .words⟩) := by
  rw [fieldBytes_eq]
  refine writes_require hm fun v hv => Writes.recode (listCode_neg hb hf) ?_
  exact writes_list FieldKind.word_pos (by norm_num) fun x hx => writes_parseArrayObjectItem (ht v hv x hx)

theorem writes_returnlistField
    (ht : ∀ v, json.getObjectItem "returnlist" = some v → ∀ x ∈ v.items, x.IsText) :
    Writes (returnlistField json) (fieldBytes h json ⟨"returnlist", .ids⟩) := by
  rw [fieldBytes_eq]
  refine writes_require (by norm_num) fun v hv => ?_
  exact writes_list FieldKind.id_pos (by norm_num) fun x hx => writes_returnItem (ht v hv x hx)

/-- Each encoder writes its format, if it counts the right number of members. -/
theorem parser_writes (t : RequestType) (ht : WellTyped json t.layout) :
    Writes (t.parser h json) (if json.getArraySize ≠ t.members then none
      else piecesOf (fieldBytes h json) t.layout) := by
  have hmem : ∀ name kind, (⟨name, kind⟩ : Field) ∈ t.layout →
      ∀ v, json.getObjectItem name = some v → kind.Typed v := fun name kind hf => ht ⟨name, kind⟩ hf
  cases t with
  | action =>
    refine writes_check (by norm_num) ?_
    have huser := hmem "userid" .id (by simp [RequestType.layout])
    have hdoc := hmem "docid" .id (by simp [RequestType.layout])
    have hlocation := hmem "location" .text (by simp [RequestType.layout])
    exact (writes_intField (by norm_num) (by norm_num)).seq <|
      (writes_intField (by norm_num) (by norm_num)).seq <|
      (writes_idField (by norm_num) (by norm_num) huser).seq <|
      (writes_idField (by norm_num) (by norm_num) hdoc).seq <|
      (writes_intField (by norm_num) (by norm_num)).seq <|
      (writes_intField (by norm_num) (by norm_num)).seq <| (writes_locationField hlocation).last
  | document =>
    refine writes_check (by norm_num) ?_
    have hdoc := hmem "docid" .id (by simp [RequestType.layout])
    have hcategory := hmem "category" .texts (by simp [RequestType.layout])
    have hword := hmem "word" .words (by simp [RequestType.layout])
    have hsrp := hmem "srp" .texts (by simp [RequestType.layout])
    have hcircle := hmem "circle" .texts (by simp [RequestType.layout])
    have htopsrp := hmem "topsrp" .texts (by simp [RequestType.layout])
    have htopcircle := hmem "topcircle" .texts (by simp [RequestType.layout])
    exact (writes_intField (by norm_num) (by norm_num)).seq <|
      (writes_idField (by norm_num) (by norm_num) hdoc).seq <|
      (writes_intField (by norm_num) (by norm_num)).seq <| writes_pushtimeField.seq <|
      writes_powerField.seq <|
      (writes_arrayField (by norm_num) (by norm_num) (by norm_num) hcategory).seq <|
      (writes_arrayObjectField (by norm_num) (by norm_num) (by norm_num) hword).seq <|
      (writes_arrayField (by norm_num) (by norm_num) (by norm_num) hsrp).seq <|
      (writes_arrayField (by norm_num) (by norm_num) (by norm_num) hcircle).seq <|
      (writes_intField (by norm_num) (by norm_num)).seq <|
      (writes_arrayField (by norm_num) (by norm_num) (by norm_num) htopsrp).seq <|
      (writes_arrayField (by norm_num) (by norm_num) (by norm_num) htopcircle).last
  | subscribe =>
    refine writes_check (by norm_num) ?_
    have huser := hmem "userid" .id (by simp [RequestType.layout])
    have hcircle := hmem "circle" .texts (by simp [RequestType.layout])
    have hsrp := hmem "srp" .texts (by simp [RequestType.layout])
    exact (writes_intField (by norm_num) (by norm_num)).seq <|
      (writes_idField (by norm_num) (by norm_num) huser).seq <|
      (writes_arrayField (by norm_num) (by norm_num) (by norm_num) hcircle).seq <|
      (writes_arrayField (by norm_num) (by norm_num) (by norm_num) hsrp).last
  | recommend =>
    refine writes_check (by norm_num) ?_
    have huser := hmem "userid" .id (by simp [RequestType.layout])
    exact (writes_intField (by norm_num) (by norm_num)).seq <|
      (writes_intField (by norm_num) (by norm_num)).seq <|
      (writes_idField (by norm_num) (by norm_num) huser).seq <|
      (writes_intField (by norm_num) (by norm_num)).last
  | heartbeat =>
    refine writes_check (by norm_num) ?_
    have hbeat := hmem "heartbeat" .text (by simp [RequestType.layout])
    exact (writes_intField (by norm_num) (by norm_num)).seq (writes_heartbeatField hbeat).last
  | feedback =>
    refine writes_check (by norm_num) ?_
    have huser := hmem "userid" .id (by simp [RequestType.layout])
    have hlist := hmem "returnlist" .ids (by simp [RequestType.layout])
    exact (writes_intField (by norm_num) (by norm_num)).seq <|
      (writes_idField (by norm_num) (by norm_num) huser).seq <|
      (writes_intField (by norm_num) (by norm_num)).seq (writes_returnlistField hlist).last

end

/-! ### What there is to write -/

def FieldKind.Complete : FieldKind → Json D → Prop
  | .words, v => ∀ x ∈ v.items, (x.getObjectItem "word").isSome ∧ (x.getObjectItem "count").isSome
  | _, _ => True

/-- Every member that the format needs is there, and in it every word and count. -/
def Complete (json : Json D) (fs : List Field) : Prop :=
  ∀ f ∈ fs, ∃ v, json.getObjectItem f.name = some v ∧ f.kind.Complete v

instance : (k : FieldKind) → (v : Json D) → Decidable (k.Complete v)
  | .words, v => inferInstanceAs (Decidable (∀ x ∈ v.items,
      (x.getObjectItem "word").isSome ∧ (x.getObjectItem "count").isSome))
  | .int, _ | .id, _ | .clock, _ | .float, _ | .text, _ | .texts, _ | .ids, _ =>
    inferInstanceAs (Decidable True)

instance (json : Json D) (fs : List Field) : Decidable (Complete json fs) :=
  inferInstanceAs (Decidable (∀ f ∈ fs, _))

/-- `strlen` -/
def strlen (node : Json D) : ℕ := (node.valuestring.map fun s => s.bytes.length).getD 0

def FieldKind.size : FieldKind → Json D → ℕ
  | .id, _ => 8
  | .text, v => 4 + strlen v
  | .texts, v => 4 + (v.items.map fun x => 4 + strlen x).sum
  | .words, v => 4 + (v.items.map fun x => 4 + ((x.getObjectItem "word").map strlen).getD 0 + 4).sum
  | .ids, v => 4 + 8 * v.items.length
  | _, _ => 4

def encodedLength (json : Json D) (fs : List Field) : ℕ :=
  (fs.map fun f => ((json.getObjectItem f.name).map f.kind.size).getD 0).sum

theorem textOf_size (x : Json D) (s : List UInt8) (h : textOf x = some s) :
    (Codec.sized.encode s).length = 4 + strlen x := by
  obtain ⟨c, hc, rfl⟩ := Option.map_eq_some_iff.mp h
  simp [Codec.sized, strlen, hc]

theorem wordOf_eq_some {x : Json D} {p : List UInt8 × I32} (h : wordOf x = some p) :
    ∃ w c, x.getObjectItem "word" = some w ∧ textOf w = some p.1 ∧ x.getObjectItem "count" = some c ∧
      p.2 = c.valueint := by
  simp only [wordOf, Option.bind_eq_bind, Option.bind_eq_some_iff, Option.some.injEq] at h
  obtain ⟨w, hw, s, hs, c, hc, rfl⟩ := h
  exact ⟨w, c, hw, hs, hc, rfl⟩

theorem wordOf_size (x : Json D) (p : List UInt8 × I32) (h : wordOf x = some p) :
    ((Codec.sized.pair Codec.int).encode p).length =
      4 + ((x.getObjectItem "word").map strlen).getD 0 + 4 := by
  obtain ⟨w, c, hw, hs, -, -⟩ := wordOf_eq_some h
  rw [Codec.pair, List.length_append, textOf_size w p.1 hs, hw]
  simp [Codec.int, Codec.word]

theorem idOf_size (x : Json D) (v : UInt64) (_ : idOf x = some v) :
    (Codec.id8.encode v).length = 8 := word8_length v

/-- A typed member has a value as a field where its words and counts are there. -/
theorem FieldKind.exists_read [Zero D] (h : Host D) {k : FieldKind} {v : Json D} (ht : k.Typed v)
    (hc : k.Complete v) : ∃ d, k.read h v = some d := by
  have htext : ∀ x : Json D, x.IsText → ∃ s, textOf x = some s := fun x ⟨s, hs⟩ =>
    ⟨s.bytes, by rw [textOf, hs]; rfl⟩
  have hid : ∀ x : Json D, x.IsText → ∃ i, idOf x = some i := fun x ⟨s, hs⟩ =>
    ⟨strtoul s.bytes, by rw [idOf, hs]; rfl⟩
  cases k with
  | int => exact ⟨_, rfl⟩
  | clock => exact ⟨_, rfl⟩
  | float => exact ⟨_, rfl⟩
  | id => exact hid v ht
  | text => exact htext v ht
  | texts => exact exists_mapM fun x hx => htext x (ht x hx)
  | ids => exact exists_mapM fun x hx => hid x (ht x hx)
  | words =>
    refine exists_mapM fun x hx => ?_
    obtain ⟨hword, hcount⟩ := hc x hx
    obtain ⟨w, hw⟩ := Option.isSome_iff_exists.mp hword
    obtain ⟨c, hc⟩ := Option.isSome_iff_exists.mp hcount
    obtain ⟨s, hs⟩ := htext w (ht x hx w hw)
    exact ⟨(s, c.valueint), by simp [wordOf, hw, hs, hc]⟩

/-- The value of a field has the length of the member, whose words and counts are there. -/
theorem FieldKind.read_size [Zero D] {h : Host D} {k : FieldKind} {v : Json D} {d : k.Datum}
    (hd : k.read h v = some d) : k.Complete v ∧ (k.codec.encode d).length = k.size v := by
  cases k with
  | int => exact ⟨trivial, int4_length _⟩
  | clock => exact ⟨trivial, int4_length _⟩
  | float => exact ⟨trivial, leBytes_length _ _⟩
  | id => exact ⟨trivial, word8_length _⟩
  | text => exact ⟨trivial, textOf_size v d hd⟩
  | texts =>
    refine ⟨trivial, (Codec.counted_length Codec.sized sized_pos d).trans ?_⟩
    rw [(mapM_size textOf_size hd).2]
    rfl
  | ids =>
    refine ⟨trivial, (Codec.counted_length Codec.id8 id_pos d).trans ?_⟩
    rw [(mapM_size idOf_size hd).2]
    simp [FieldKind.size, mul_comm]
  | words =>
    obtain ⟨hall, hlen⟩ := mapM_size wordOf_size hd
    refine ⟨fun x hx => ?_, (Codec.counted_length (Codec.sized.pair Codec.int) word_pos d).trans ?_⟩
    · obtain ⟨p, hp⟩ := hall x hx
      obtain ⟨w, c, hw, -, hc, -⟩ := wordOf_eq_some hp
      simp [hw, hc]
    · rw [hlen]
      rfl

theorem exists_fieldValues [Zero D] (h : Host D) {json : Json D} {fs : List Field}
    (ht : WellTyped json fs) (hc : Complete json fs) : ∃ vs, fieldValues h json fs = some vs := by
  induction fs with
  | nil => exact ⟨(), rfl⟩
  | cons f fs ih =>
    obtain ⟨v, hv, hcv⟩ := hc f List.mem_cons_self
    obtain ⟨d, hd⟩ := FieldKind.exists_read h (ht f List.mem_cons_self v hv) hcv
    obtain ⟨vs, hvs⟩ := ih (fun g hg => ht g (List.mem_cons_of_mem _ hg))
      fun g hg => hc g (List.mem_cons_of_mem _ hg)
    exact ⟨(d, vs), by simp [fieldValues, fieldValue, hv, hd, hvs]⟩

theorem fieldValues_cons [Zero D] {h : Host D} {json : Json D} {f : Field} {fs : List Field}
    {vs : Values (f :: fs)} (hvs : fieldValues h json (f :: fs) = some vs) :
    fieldValue h json f = some vs.1 ∧ fieldValues h json fs = some vs.2 := by
  simp only [fieldValues, Option.bind_eq_bind, Option.bind_eq_some_iff] at hvs
  obtain ⟨d, hd, ds, hds, hpair⟩ := hvs
  obtain rfl : (d, ds) = vs := Option.some.inj hpair
  exact ⟨hd, hds⟩

/-- The values of a request are there with all its members, and are written in its
encoded length. -/
theorem fieldValues_size [Zero D] {h : Host D} {json : Json D} {fs : List Field} {vs : Values fs}
    (hvs : fieldValues h json fs = some vs) :
    Complete json fs ∧ ((codecOf fs).encode vs).length = encodedLength json fs := by
  induction fs with
  | nil => exact ⟨fun f hf => absurd hf List.not_mem_nil, rfl⟩
  | cons f fs ih =>
    obtain ⟨hd, hds⟩ := fieldValues_cons hvs
    obtain ⟨v, hv, hread⟩ := Option.bind_eq_some_iff.mp hd
    obtain ⟨hcv, hsize⟩ := FieldKind.read_size hread
    obtain ⟨hc, hlen⟩ := ih hds
    refine ⟨List.forall_mem_cons.mpr ⟨⟨v, hv, hcv⟩, hc⟩, ?_⟩
    rw [codecOf, Codec.pair, List.length_append, hsize, hlen]
    simp [encodedLength, hv]

/-! ### The encoders -/

/-- `binary_size` afterwards: the length behind the last field, on success only. -/
def binarySize (size : ℤ) (r : Result Unit) : ℤ :=
  match r.out with
  | .ok _ => r.len
  | _ => size

/-- An encoder keeps to the capacity, succeeds on what fits, sets the size to what it has
written, and otherwise returns a negative code and leaves the size alone. -/
structure WritesWhatFits (size : ℤ) (r : Result Unit) (fits : Prop) : Prop where
  inside : (r.bytes.length : ℤ) ≤ size
  accepts : r.out = .ok () ↔ fits
  sets : r.out = .ok () → binarySize size r = r.bytes.length
  keeps : r.out ≠ .ok () → (∃ c < 0, r.out = .code c) ∧ binarySize size r = size

/-- What an encoder succeeds with is the request in its format. -/
theorem parser_ok [Zero D] {h : Host D} {json : Json D} {t : RequestType} (ht : WellTyped json t.layout)
    {size : ℤ} (hs : 0 ≤ size) (hok : (t.parser h json size 0).out = .ok ()) :
    json.getArraySize = t.members ∧ ∃ vs, fieldValues h json t.layout = some vs ∧
      (((codecOf t.layout).encode vs).length : ℤ) ≤ size ∧ t.parser h json size 0 =
        ⟨(codecOf t.layout).encode vs, ((codecOf t.layout).encode vs).length, .ok ()⟩ := by
  have hw := parser_writes (h := h) t ht
  by_cases hfit : Fits (if json.getArraySize ≠ t.members then none
      else piecesOf (fieldBytes h json) t.layout) (size - 0)
  · obtain ⟨bs, hbs, hlen⟩ := hfit
    have hrun := hw.ok size 0 bs hbs (by omega)
    split_ifs at hbs with hnum
    rw [piecesOf_fields] at hbs
    obtain ⟨vs, hvs, rfl⟩ := Option.map_eq_some_iff.mp hbs
    rw [zero_add] at hrun
    exact ⟨not_not.mp hnum, vs, hvs, by omega, hrun⟩
  · obtain ⟨⟨c, -, hc⟩, -⟩ := hw.stops size 0 hs hfit
    rw [hc] at hok
    cases hok

/-- Each encoder writes exactly what fits: a request with the right number of members in
which all of the format are there and that is not longer than the capacity. -/
theorem parser_writesWhatFits [Zero D] (h : Host D) {json : Json D} (t : RequestType)
    (ht : WellTyped json t.layout) {size : ℤ} (hs : 0 ≤ size) :
    WritesWhatFits size (t.parser h json size 0) (json.getArraySize = t.members ∧
      Complete json t.layout ∧ (encodedLength json t.layout : ℤ) ≤ size) := by
  have hw := parser_writes (h := h) t ht
  by_cases hok : (t.parser h json size 0).out = .ok ()
  · obtain ⟨hnum, vs, hvs, hlen, hrun⟩ := parser_ok ht hs hok
    obtain ⟨hc, hsize⟩ := fieldValues_size hvs
    rw [hsize] at hlen
    rw [hrun]
    refine ⟨by rw [hsize]; exact hlen, ⟨fun _ => ⟨hnum, hc, hlen⟩, fun _ => rfl⟩, fun _ => rfl,
      fun hn => absurd rfl hn⟩
  · have hfit : ¬ (json.getArraySize = t.members ∧ Complete json t.layout ∧
        (encodedLength json t.layout : ℤ) ≤ size) := by
      rintro ⟨hnum, hc, hlen⟩
      obtain ⟨vs, hvs⟩ := exists_fieldValues h ht hc
      have hbs : (if json.getArraySize ≠ t.members then none
          else piecesOf (fieldBytes h json) t.layout) = some ((codecOf t.layout).encode vs) := by
        rw [if_neg (not_not.mpr hnum), piecesOf_fields, hvs]
        rfl
      have hsize := (fieldValues_size hvs).2
      exact hok (by rw [hw.ok size 0 _ hbs (by omega)])
    have hnone : ¬ Fits (if json.getArraySize ≠ t.members then none
        else piecesOf (fieldBytes h json) t.layout) (size - 0) := by
      rintro ⟨bs, hbs, hlen⟩
      exact hok (by rw [hw.ok size 0 bs hbs (by omega)])
    obtain ⟨⟨c, hc, hout⟩, hbytes⟩ := hw.stops size 0 hs hnone
    refine ⟨by omega, iff_of_false hok hfit, fun h => absurd h hok, fun _ => ⟨⟨c, hc, hout⟩, ?_⟩⟩
    rw [binarySize, hout]

def clickRequest : Json ℤ :=
  .object [(lit "type", .scalar (i32 1) 1), (lit "clicktime", .scalar (i32 9) 9),
    (lit "userid", .string (CStr.ofLit "7")), (lit "docid", .string (CStr.ofLit "31")),
    (lit "staytime", .scalar (i32 5) 5), (lit "action", .scalar (i32 1) 1),
    (lit "location", .string (CStr.ofLit "bj"))]

def noteDocument : Json ℤ :=
  .object [(lit "type", .scalar (i32 2) 2), (lit "docid", .string (CStr.ofLit "7")),
    (lit "publictime", .scalar (i32 1) 1), (lit "pushtime", .scalar (i32 1) 1),
    (lit "power", .scalar (i32 1) 1), (lit "category", .array [.string (CStr.ofLit "a")]),
    (lit "word", .array [.object [(lit "word", .string (CStr.ofLit "w")), (lit "count", .scalar (i32 3) 3)]]),
    (lit "srp", .array []), (lit "circle", .array []), (lit "topflag", .scalar (i32 0) 0),
    (lit "topsrp", .array []), (lit "topcircle", .array [])]

def stoppedHost : Host ℤ := ⟨0, fun _ => 0⟩

theorem clickRequest_wellTyped : WellTyped clickRequest RequestType.action.layout := by decide

theorem noteDocument_wellTyped : WellTyped noteDocument RequestType.document.layout := by decide

/-- The click fits 64 bytes, and the document 66 but not 65. -/
theorem parser_writesWhatFits_example :
    (RequestType.action.parser stoppedHost clickRequest 64 0).out = .ok () ∧
      (RequestType.document.parser stoppedHost noteDocument 66 0).out = .ok () ∧
      (RequestType.document.parser stoppedHost noteDocument 65 0).out ≠ .ok () := by
  refine ⟨?_, ?_, ?_⟩
  · exact (parser_writesWhatFits stoppedHost .action clickRequest_wellTyped (by norm_num)).accepts.mpr
      ⟨rfl, by decide, by decide⟩
  · exact (parser_writesWhatFits stoppedHost .document noteDocument_wellTyped (by norm_num)).accepts.mpr
      ⟨rfl, by decide, by decide⟩
  · intro h
    rcases (parser_writesWhatFits stoppedHost .document noteDocument_wellTyped (by norm_num)).accepts.mp h with
      ⟨-, -, hlen⟩
    exact absurd hlen (by decide)

end PrimaryElection.Framework
