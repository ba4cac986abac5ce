import PrimaryElection.Framework.JsonTotal

/-! Which item messages the front end of the modules accepts. Its condition is computed
field by field. The check of a word's count looks at the node variable that the loops
over doctype, category and categoryid left behind, so that words are refused in an item
that has none of these. -/

namespace PrimaryElection.Framework

open CInt
open Encoder (Outcome)
open Encoder.Outcome (Accepts accepts_pure accepts_code accepts_require accepts_use accepts_mapM)

variable {D : Type}

namespace Json

def HasText (json : Json D) (name : String) : Prop :=
  ∃ v, json.getObjectItem name = some v ∧ v.IsText

def itemsAt (json : Json D) (name : String) : List (Json D) :=
  (json.getObjectItem name).elim [] items

theorem itemsAt_length (json : Json D) (name : String) :
    (json.itemsAt name).length = json.sizeAt name := by
  unfold itemsAt sizeAt
  cases json.getObjectItem name <;> rfl

theorem forall_itemsAt {json : Json D} {name : String} {p : Json D → Prop} :
    (∀ x ∈ json.itemsAt name, p x) ↔
      ∀ v, json.getObjectItem name = some v → ∀ x ∈ v.items, p x := by
  unfold itemsAt
  cases json.getObjectItem name <;> simp

end Json

namespace JParse

/-- An element of the word list that is accepted after a node that is there or not. -/
def WordAccepted (node : Option (Json D)) (x : Json D) : Prop :=
  x.HasText "word" ∧ node.isSome ∧ (x.getObjectItem "count").isSome

/-- The condition under which the item parser returns 0. -/
def ItemAccepted (json : Json D) : Prop :=
  json.HasText "docid" ∧ json.TextsAt "category" ∧
  json.CountAt "categoryid" (json.sizeAt "category") ∧
  (∀ x ∈ json.itemsAt "word", WordAccepted (staleNode json) x) ∧
  json.TextsAt "srp" ∧ json.CountAt "srppower" (json.sizeAt "srp") ∧ json.TextsAt "circle" ∧
  ((intOr json "topflag" (i32 0)).val ≠ 0 → json.TextsAt "topsrp" ∧ json.TextsAt "topcircle") ∧
  json.TextsAt "zone" ∧ json.TextAt "sourcename" ∧ json.TextAt "sourceid" ∧
  json.TextsAt "tag" ∧ json.CountAt "tagid" (json.sizeAt "tag") ∧ json.TextsAt "tagid" ∧
  json.CountAt "tagpower" (json.sizeAt "tag")

/-! ### Members -/

variable {α β : Type} {P : Prop}

theorem accepts_text {node : Json D} {g : CStr → Outcome β} (hg : ∀ s, Accepts (g s) P) :
    Accepts (text node >>= g) (node.IsText ∧ P) :=
  (accepts_use hg).congr exists_and_right

theorem accepts_idText {node : Json D} {g : UInt64 → Outcome β} (hg : ∀ v, Accepts (g v) P) :
    Accepts (idText node >>= g) (node.IsText ∧ P) := by
  unfold idText
  rw [bind_assoc]
  exact accepts_text fun s => hg _

theorem accepts_idMember {json : Json D} {name : String} {missing : ℤ} {g : UInt64 → Outcome β}
    (hg : ∀ v, Accepts (g v) P) :
    Accepts (idMember json name missing >>= g) (json.HasText name ∧ P) := by
  unfold idMember Json.HasText
  rw [bind_assoc]
  refine (accepts_require fun node => accepts_idText hg).congr ?_
  simp only [← and_assoc, exists_and_right]

/-- A member read only if it is there, by a piece whose exact condition is `cond`. -/
theorem accepts_optional {o : Option (Json D)} {absent : α} {f : Json D → Outcome α}
    {cond : Json D → Prop} {g : α → Outcome β}
    (hf : ∀ v, o = some v → Accepts (f v >>= g) (cond v ∧ P))
    (hg : o = none → Accepts (g absent) P) :
    Accepts ((match o with | none => pure absent | some v => f v) >>= g)
      ((∀ v, o = some v → cond v) ∧ P) := by
  cases o with
  | none => simpa using hg rfl
  | some v => simpa using hf v rfl

theorem accepts_textOr {json : Json D} {name : String} {g : CStr → Outcome β}
    (hg : ∀ s, Accepts (g s) P) : Accepts (textOr json name >>= g) (json.TextAt name ∧ P) :=
  accepts_optional (fun _ _ => accepts_text hg) (fun _ => hg _)

theorem accepts_idOr {json : Json D} {name : String} {g : UInt64 → Outcome β}
    (hg : ∀ v, Accepts (g v) P) : Accepts (idOr json name >>= g) (json.TextAt name ∧ P) :=
  accepts_optional (fun _ _ => accepts_idText hg) (fun _ => hg _)

theorem accepts_texts {json : Json D} {name : String} {g : List CStr → Outcome β}
    (hg : ∀ ss, ss.length = json.sizeAt name → Accepts (g ss) P) :
    Accepts (texts json name >>= g) (json.TextsAt name ∧ P) := by
  unfold texts Json.TextsAt
  refine accepts_optional (fun v hv => ?_) (fun hnone => hg [] ?_)
  · refine accepts_mapM (fun x k Q hk => accepts_text hk) v.items fun ss hss => hg ss ?_
    simp [hss, Json.sizeAt, hv, Json.getArraySize]
  · simp [Json.sizeAt, hnone]

theorem accepts_tagNames [Zero D] {json : Json D} {name : String}
    {g : List (ItemTag D) → Outcome β}
    (hg : ∀ tags, tags.length = json.sizeAt name → Accepts (g tags) P) :
    Accepts (tagNames json name >>= g) (json.TextsAt name ∧ P) := by
  unfold tagNames
  rw [bind_assoc]
  exact accepts_texts fun ss hss => hg _ (by simpa using hss)

/-- Setting a value of each tag: the counts agree, and each item is accepted. -/
theorem accepts_setTags {json : Json D} {name : String} {tags : List (ItemTag D)} {n : ℕ}
    {wrong : ℤ} {set : ItemTag D → Json D → Outcome (ItemTag D)} {cond : Json D → Prop}
    {g : List (ItemTag D) → Outcome β} (htags : tags.length = n)
    (hf : ∀ tag x (k : ItemTag D → Outcome β) Q, (∀ t, Accepts (k t) Q) →
      Accepts (set tag x >>= k) (cond x ∧ Q))
    (hg : ∀ l, l.length = n → Accepts (g l) P) :
    Accepts (setTags json name tags wrong set >>= g)
      (json.CountAt name n ∧
        (∀ v, json.getObjectItem name = some v → ∀ x ∈ v.items, cond x) ∧ P) := by
  subst htags
  unfold setTags Json.CountAt
  cases json.getObjectItem name with
  | none => simpa using hg tags rfl
  | some array =>
    by_cases hn : array.getArraySize = tags.length
    · have hz : (tags.zip array.items).length = tags.length := by
        simp only [List.length_zip]
        exact min_eq_left hn.ge
      have h := accepts_mapM (fun p k Q hk => hf p.1 p.2 k Q hk) (tags.zip array.items)
        (fun l hl => hg l (hl.trans hz))
      have hc : (∀ p ∈ tags.zip array.items, cond p.2) ↔ ∀ x ∈ array.items, cond x := by
        conv_rhs => rw [← List.map_snd_zip hn.le]
        simp only [List.forall_mem_map]
      simp only [hn, ne_eq, not_true_eq_false, if_false, Option.some.injEq, forall_eq', true_and]
      exact h.trans (and_congr_left fun _ => hc)
    · simp only [ne_eq, hn, not_false_eq_true, if_true, Option.some.injEq, forall_eq', false_and]
      exact accepts_code wrong

theorem accepts_setNumbers {json : Json D} {name : String} {tags : List (ItemTag D)} {n : ℕ}
    {wrong : ℤ} {set : ItemTag D → Json D → ItemTag D} {g : List (ItemTag D) → Outcome β}
    (htags : tags.length = n) (hg : ∀ l, l.length = n → Accepts (g l) P) :
    Accepts (setTags json name tags wrong (fun t x => pure (set t x)) >>= g)
      (json.CountAt name n ∧ P) := by
  have hf : ∀ t x (k : ItemTag D → Outcome β) Q, (∀ t', Accepts (k t') Q) →
      Accepts (pure (set t x) >>= k) (True ∧ Q) := by
    intro t x k Q hk
    rw [pure_bind, true_and]
    exact hk _
  have h : Accepts (setTags json name tags wrong (fun t x => pure (set t x)) >>= g)
      (json.CountAt name n ∧ (∀ v, json.getObjectItem name = some v → ∀ x ∈ v.items, True) ∧ P) :=
    accepts_setTags htags hf hg
  exact h.congr (by simp)

theorem accepts_setIds {json : Json D} {name : String} {tags : List (ItemTag D)} {n : ℕ}
    {wrong : ℤ} {g : List (ItemTag D) → Outcome β}
    (htags : tags.length = n) (hg : ∀ l, l.length = n → Accepts (g l) P) :
    Accepts (setTags json name tags wrong setTagId >>= g)
      (json.CountAt name n ∧ json.TextsAt name ∧ P) := by
  refine accepts_setTags htags (fun t x k Q hk => ?_) hg
  unfold setTagId
  rw [bind_assoc]
  exact accepts_idText fun v => hk _

/-! ### The item -/

theorem accepts_word {node : Option (Json D)} {x : Json D} {g : ItemWord → Outcome β}
    (hg : ∀ w, Accepts (g w) P) : Accepts (word node x >>= g) (WordAccepted node x ∧ P) := by
  unfold word WordAccepted Json.HasText
  simp only [bind_assoc, pure_bind]
  refine (accepts_require fun w => accepts_require fun _ => accepts_text fun _ =>
    accepts_use fun _ => hg _).congr ?_
  simp only [Option.isSome_iff_exists]
  constructor
  · rintro ⟨w, hw, n, hn, ht, c, hc, hP⟩
    exact ⟨⟨⟨w, hw, ht⟩, ⟨n, hn⟩, c, hc⟩, hP⟩
  · rintro ⟨⟨⟨w, hw, ht⟩, ⟨n, hn⟩, c, hc⟩, hP⟩
    exact ⟨w, hw, n, hn, ht, c, hc, hP⟩

theorem accepts_words {node : Option (Json D)} {json : Json D} {g : List ItemWord → Outcome β}
    (hg : ∀ ws, Accepts (g ws) P) :
    Accepts (words node json >>= g) ((∀ x ∈ json.itemsAt "word", WordAccepted node x) ∧ P) := by
  rw [Json.forall_itemsAt]
  unfold words
  exact accepts_optional (fun v _ => accepts_mapM (fun x k Q hk => accepts_word hk) v.items
    fun l _ => hg l) (fun _ => hg [])

theorem accepts_topInfo {json : Json D} {g : TopInfo → Outcome β} (hg : ∀ t, Accepts (g t) P) :
    Accepts (topInfo json >>= g)
      (((intOr json "topflag" (i32 0)).val ≠ 0 →
        json.TextsAt "topsrp" ∧ json.TextsAt "topcircle") ∧ P) := by
  unfold topInfo
  by_cases h : (intOr json "topflag" (i32 0)).val = 0
  · simpa [h] using hg _
  · simp only [h, if_false, bind_assoc, pure_bind, ne_eq, not_false_eq_true, true_imp_iff, and_assoc]
    exact accepts_texts fun _ _ => accepts_texts fun _ _ => hg _

theorem accepts_dataSource {json : Json D} {g : ItemSource → Outcome β}
    (hg : ∀ s, Accepts (g s) P) :
    Accepts (dataSource json >>= g) (json.TextAt "sourcename" ∧ json.TextAt "sourceid" ∧ P) := by
  unfold dataSource
  simp only [bind_assoc, pure_bind]
  exact accepts_textOr fun _ => accepts_idOr fun _ => hg _

theorem accepts_parseItem [Zero D] (h : Host D) (json : Json D) :
    Accepts (parseItem h json) (ItemAccepted json) := by
  unfold parseItem ItemAccepted
  refine Accepts.congr (accepts_idMember fun _ => accepts_tagNames fun _ hc =>
    accepts_setNumbers hc fun _ _ => accepts_words fun _ => accepts_tagNames fun _ hs =>
    accepts_setNumbers hs fun _ _ => accepts_tagNames fun _ _ => accepts_topInfo fun _ =>
    accepts_texts fun _ _ => accepts_dataSource fun _ => accepts_tagNames fun _ ht =>
    accepts_setIds ht fun _ ht' => accepts_setNumbers ht' fun _ _ => accepts_pure _) ?_
  rw [and_true]
  rfl

/-! ### Well-typed items -/

/-- An element of the word list: an object whose word is a string and whose count is a
number, if they are there. -/
@[mk_iff]
structure WordTyped (x : Json D) : Prop where
  object : ∃ kvs, x = .object kvs
  word : x.TextAt "word"
  count : ∀ v, x.getObjectItem "count" = some v → ∃ i d, v = .scalar i d

/-- An object whose members have the types that the parser reads them with, if they are
there. -/
@[mk_iff]
structure ItemTyped (json : Json D) : Prop where
  object : ∃ kvs, json = .object kvs
  texts : ∀ name ∈ ["docid", "sourcename", "sourceid"], json.TextAt name
  numbers : ∀ name ∈ ["publictime", "picturenumber", "expiredtime", "power", "doctype", "topflag"],
    ∀ v, json.getObjectItem name = some v → ∃ i d, v = .scalar i d
  arrays : ∀ name ∈ ["category", "categoryid", "word", "srp", "srppower", "circle", "topsrp",
    "topcircle", "zone", "tag", "tagid", "tagpower"],
    ∀ v, json.getObjectItem name = some v → ∃ xs, v = .array xs
  textItems : ∀ name ∈ ["category", "srp", "circle", "topsrp", "topcircle", "zone", "tag", "tagid"],
    json.TextsAt name
  numberItems : ∀ name ∈ ["categoryid", "srppower", "tagpower"],
    ∀ x ∈ json.itemsAt name, ∃ i d, x = .scalar i d
  words : ∀ x ∈ json.itemsAt "word", WordTyped x

/-- What makes an item well formed: an id, both members of every word, and companion
arrays as long as the arrays of names. -/
@[mk_iff]
structure ItemWellFormed (json : Json D) : Prop where
  docid : (json.getObjectItem "docid").isSome
  words : ∀ x ∈ json.itemsAt "word",
    (x.getObjectItem "word").isSome ∧ (x.getObjectItem "count").isSome
  categoryid : json.CountAt "categoryid" (json.sizeAt "category")
  srppower : json.CountAt "srppower" (json.sizeAt "srp")
  tagid : json.CountAt "tagid" (json.sizeAt "tag")
  tagpower : json.CountAt "tagpower" (json.sizeAt "tag")

instance (x : Json D) : Decidable (WordTyped x) := decidable_of_iff' _ (wordTyped_iff x)

instance (json : Json D) : Decidable (ItemTyped json) := decidable_of_iff' _ (itemTyped_iff json)

instance (json : Json D) : Decidable (ItemWellFormed json) :=
  decidable_of_iff' _ (itemWellFormed_iff json)

theorem hasText_iff {json : Json D} {name : String} (ht : json.TextAt name) :
    json.HasText name ↔ (json.getObjectItem name).isSome := by
  unfold Json.HasText
  rw [Option.isSome_iff_exists]
  exact ⟨fun ⟨v, hv, _⟩ => ⟨v, hv⟩, fun ⟨v, hv⟩ => ⟨v, hv, ht v hv⟩⟩

/-- The parser accepts a well-formed item if it has no words or the node is left. -/
theorem itemAccepted_iff {json : Json D} (hj : ItemTyped json) : ItemAccepted json ↔
    ItemWellFormed json ∧ (json.sizeAt "word" = 0 ∨ (staleNode json).isSome) := by
  have hwords : (∀ x ∈ json.itemsAt "word", WordAccepted (staleNode json) x) ↔
      (∀ x ∈ json.itemsAt "word",
        (x.getObjectItem "word").isSome ∧ (x.getObjectItem "count").isSome) ∧
      (json.sizeAt "word" = 0 ∨ (staleNode json).isSome) := by
    rw [← Json.itemsAt_length, List.length_eq_zero_iff]
    constructor
    · intro h
      refine ⟨fun x hx => ?_, ?_⟩
      · obtain ⟨hw, -, hc⟩ := h x hx
        exact ⟨(hasText_iff (hj.words x hx).word).mp hw, hc⟩
      · by_cases he : json.itemsAt "word" = []
        · exact .inl he
        · obtain ⟨x, hx⟩ := List.exists_mem_of_ne_nil _ he
          exact .inr (h x hx).2.1
    · rintro ⟨h, he | hn⟩ x hx
      · rw [he] at hx
        cases hx
      · obtain ⟨hw, hc⟩ := h x hx
        exact ⟨(hasText_iff (hj.words x hx).word).mpr hw, hn, hc⟩
  have ht := hj.textItems
  have hs := hj.texts
  unfold ItemAccepted
  rw [hwords, hasText_iff (hs "docid" (by simp))]
  constructor
  · rintro ⟨hdoc, -, hcat, ⟨hw, hn⟩, -, hsrp, -, -, -, -, -, -, htag, -, hpow⟩
    exact ⟨⟨hdoc, hw, hcat, hsrp, htag, hpow⟩, hn⟩
  · rintro ⟨hwf, hn⟩
    exact ⟨hwf.docid, ht _ (by simp), hwf.categoryid, ⟨hwf.words, hn⟩, ht _ (by simp),
      hwf.srppower, ht _ (by simp), fun _ => ⟨ht _ (by simp), ht _ (by simp)⟩, ht _ (by simp),
      hs _ (by simp), hs _ (by simp), ht _ (by simp), hwf.tagid, ht _ (by simp), hwf.tagpower⟩

theorem nodeAfter_isSome {array node : Option (Json D)} : (nodeAfter array node).isSome ↔
    0 < (array.elim 0 Json.getArraySize) ∨ node.isSome := by
  unfold nodeAfter
  rw [Option.isSome_or, Bool.or_eq_true, List.getLast?_isSome, ← List.length_pos_iff]
  cases array <;> rfl

/-- With companion counts that agree, the node is left by the doctype or a category. -/
theorem staleNode_isSome {json : Json D}
    (hc : json.CountAt "categoryid" (json.sizeAt "category")) : (staleNode json).isSome ↔
      (json.getObjectItem "doctype").isSome ∨ 0 < json.sizeAt "category" := by
  unfold staleNode
  rw [nodeAfter_isSome, nodeAfter_isSome]
  change 0 < json.sizeAt "categoryid" ∨ 0 < json.sizeAt "category" ∨ _ ↔ _
  have hle : json.sizeAt "categoryid" ≤ json.sizeAt "category" := by
    unfold Json.CountAt at hc
    unfold Json.sizeAt at hc ⊢
    cases hv : json.getObjectItem "categoryid" with
    | none => exact Nat.zero_le _
    | some v => exact (hc v hv).le
  constructor
  · rintro (h | h | h)
    · exact .inr (by omega)
    · exact .inr h
    · exact .inl h
  · rintro (h | h)
    · exact .inr (.inr h)
    · exact .inr (.inl h)

/-- On well-typed items the parser accepts exactly the well-formed ones, unless one of
these has words but neither a doctype nor a category. -/
theorem item_accepted_iff [Zero D] (h : Host D) {json : Json D} (hj : ItemTyped json) :
    ((∃ item, parseItem h json = .ok item) ↔ ItemWellFormed json) ↔
      json.sizeAt "word" = 0 ∨ (json.getObjectItem "doctype").isSome ∨
        0 < json.sizeAt "category" ∨ ¬ ItemWellFormed json := by
  have hacc : (∃ item, parseItem h json = .ok item) ↔ ItemAccepted json := accepts_parseItem h json
  rw [hacc, itemAccepted_iff hj]
  by_cases hwf : ItemWellFormed json
  · have hstale := staleNode_isSome hwf.categoryid
    simp only [hwf, true_and, iff_true, not_true_eq_false, or_false]
    rw [hstale]
  · simp only [hwf, false_and, not_false_eq_true, or_true]

/-! ### Fixed inputs -/

/-- The object `{"docid":"7","word":[{"word":"x","count":1}]}`. -/
def wordsOnly : Json ℤ :=
  .object [(lit "docid", .string (.ofLit "7")),
    (lit "word", .array [.object [(lit "word", .string (.ofLit "x")),
      (lit "count", .scalar (i32 1) 1)]])]

/-- The object `{"docid":"7","category":["a","b"],"categoryid":[5,6],
"word":[{"word":"x","count":1}],"tag":["t"],"tagid":["9"]}`. -/
def taggedItem : Json ℤ :=
  .object [(lit "docid", .string (.ofLit "7")),
    (lit "category", .array [.string (.ofLit "a"), .string (.ofLit "b")]),
    (lit "categoryid", .array [.scalar (i32 5) 5, .scalar (i32 6) 6]),
    (lit "word", .array [.object [(lit "word", .string (.ofLit "x")),
      (lit "count", .scalar (i32 1) 1)]]),
    (lit "tag", .array [.string (.ofLit "t")]), (lit "tagid", .array [.string (.ofLit "9")])]

theorem wordsOnly_typed : ItemTyped wordsOnly := by decide

theorem taggedItem_typed : ItemTyped taggedItem := by decide

theorem item_accepted_example :
    ((∃ item, parseItem ⟨0, fun _ => 0⟩ taggedItem = .ok item) ↔ ItemWellFormed taggedItem) ↔
      1 = 0 ∨ (taggedItem.getObjectItem "doctype").isSome ∨ 0 < 2 ∨ ¬ ItemWellFormed taggedItem :=
  item_accepted_iff ⟨0, fun _ => 0⟩ taggedItem_typed

/-- A well-formed item with a word is refused with the code of a missing count. -/
theorem wellFormed_refused :
    ItemTyped wordsOnly ∧ ItemWellFormed wordsOnly ∧
      parseItem ⟨0, fun _ => 0⟩ wordsOnly = .code (-206) ∧
      ¬ ((∃ item, parseItem ⟨0, fun _ => 0⟩ wordsOnly = .ok item) ↔ ItemWellFormed wordsOnly) := by
  have hwf : ItemWellFormed wordsOnly := by decide
  have hcode : parseItem ⟨0, fun _ => 0⟩ wordsOnly = .code (-206) := rfl
  refine ⟨wordsOnly_typed, hwf, hcode, fun h => ?_⟩
  obtain ⟨item, hitem⟩ := h.mpr hwf
  rw [hcode] at hitem
  cases hitem

end JParse

end PrimaryElection.Framework
