import PrimaryElection.Framework.CenterTotal
import PrimaryElection.Framework.JParse

/-! When both JSON front ends are total. The front end of the modules reads most
members only if they are there, uses strings without a check of their type, and
takes the count of a word without a check that it is there. Its exact condition is
computed field by field, as for the center, and both are put together. -/

namespace PrimaryElection.Framework

open CInt
open Encoder (Outcome)
open Encoder.Outcome (Faultless faultless_pure faultless_code faultless_require faultless_use
  faultless_mapM faultless_map forEachCond forEachCond_and)

variable {D : Type}

namespace Json

def TextAt (json : Json D) (name : String) : Prop :=
  ∀ v, json.getObjectItem name = some v → v.IsText

def TextsAt (json : Json D) (name : String) : Prop :=
  ∀ v, json.getObjectItem name = some v → ∀ x ∈ v.items, x.IsText

/-- The member is looked up and is a string; what follows is reached if it is there. -/
def NeedsText (json : Json D) (name : String) (P : Prop) : Prop :=
  ∀ v, json.getObjectItem name = some v → v.IsText ∧ P

def sizeAt (json : Json D) (name : String) : ℕ := (json.getObjectItem name).elim 0 getArraySize

def CountAt (json : Json D) (name : String) (n : ℕ) : Prop :=
  ∀ v, json.getObjectItem name = some v → v.getArraySize = n

instance (json : Json D) (name : String) : Decidable (json.TextAt name) := decidableIfThere _ _

instance (json : Json D) (name : String) : Decidable (json.TextsAt name) := decidableIfThere _ _

instance (json : Json D) (name : String) (n : ℕ) : Decidable (json.CountAt name n) :=
  decidableIfThere _ _

end Json

namespace JParse

/-- An element of the word list of a message: where the node of an earlier loop is
there, the word is a string and has a count. -/
def wordCond (node : Option (Json D)) (x : Json D) (P : Prop) : Prop :=
  ∀ w, x.getObjectItem "word" = some w → ∀ n, node = some n →
    w.IsText ∧ ∃ c, x.getObjectItem "count" = some c ∧ P

def WordsCond (node : Option (Json D)) (json : Json D) (P : Prop) : Prop :=
  match json.getObjectItem "word" with
  | none => P
  | some array => forEachCond (wordCond node) array.items P

def ActionReadable (json : Json D) : Prop :=
  ∀ v, json.getObjectItem "clicktime" = some v → json.NeedsText "userid" (json.NeedsText "docid"
    (∀ a, json.getObjectItem "action" = some a → json.TextAt "location" ∧ json.TextAt "srpid" ∧
      json.TextAt "dislike" ∧ json.TextAt "zone"))

/-- The node that the check of the word list looks at. -/
def staleNode (json : Json D) : Option (Json D) :=
  nodeAfter (json.getObjectItem "categoryid")
    (nodeAfter (json.getObjectItem "category") (json.getObjectItem "doctype"))

def ItemReadable (json : Json D) : Prop :=
  json.NeedsText "docid" (json.TextsAt "category" ∧
    (json.CountAt "categoryid" (json.sizeAt "category") → WordsCond (staleNode json) json
      (json.TextsAt "srp" ∧ (json.CountAt "srppower" (json.sizeAt "srp") →
        json.TextsAt "circle" ∧
        ((intOr json "topflag" (i32 0)).val ≠ 0 →
          json.TextsAt "topsrp" ∧ json.TextsAt "topcircle") ∧
        json.TextsAt "zone" ∧ json.TextAt "sourcename" ∧ json.TextAt "sourceid" ∧
        json.TextsAt "tag" ∧
        (json.CountAt "tagid" (json.sizeAt "tag") → json.TextsAt "tagid")))))

/-- The condition on a message of each type. -/
def Readable (json : Json D) : Prop :=
  ∀ type, json.getObjectItem "type" = some type →
    match type.valueint.val with
    | 1 => ActionReadable json
    | 2 => ItemReadable json
    | 3 => json.NeedsText "userid" (json.TextsAt "srp" ∧ json.TextsAt "circle")
    | 4 => json.NeedsText "userid" (json.TextAt "zone")
    | 5 => json.NeedsText "heartbeat" True
    | 6 => json.NeedsText "userid" (json.TextsAt "returnlist")
    | _ => True

/-! ### Members -/

variable {α β : Type} {P : Prop}

theorem faultless_text {node : Json D} {g : CStr → Outcome β} (hg : ∀ s, Faultless (g s) P) :
    Faultless (text node >>= g) (node.IsText ∧ P) :=
  (faultless_use hg).congr exists_and_right

theorem faultless_idText {node : Json D} {g : UInt64 → Outcome β} (hg : ∀ v, Faultless (g v) P) :
    Faultless (idText node >>= g) (node.IsText ∧ P) := by
  unfold idText
  rw [bind_assoc]
  exact faultless_text fun s => hg _

theorem faultless_idMember {json : Json D} {name : String} {missing : ℤ} {g : UInt64 → Outcome β}
    (hg : ∀ v, Faultless (g v) P) :
    Faultless (idMember json name missing >>= g) (json.NeedsText name P) := by
  unfold idMember
  rw [bind_assoc]
  exact faultless_require fun node => faultless_idText hg

/-- A member read only if it is there, by a piece whose exact condition is `cond`. -/
theorem faultless_optional {o : Option (Json D)} {absent : α} {f : Json D → Outcome α}
    {cond : Json D → Prop} {g : α → Outcome β}
    (hf : ∀ v, o = some v → Faultless (f v >>= g) (cond v ∧ P))
    (hg : o = none → Faultless (g absent) P) :
    Faultless ((match o with | none => pure absent | some v => f v) >>= g)
      ((∀ v, o = some v → cond v) ∧ P) := by
  cases o with
  | none => simpa using hg rfl
  | some v => simpa using hf v rfl

theorem faultless_textOr {json : Json D} {name : String} {g : CStr → Outcome β}
    (hg : ∀ s, Faultless (g s) P) :
    Faultless (textOr json name >>= g) (json.TextAt name ∧ P) :=
  faultless_optional (fun _ _ => faultless_text hg) (fun _ => hg _)

theorem faultless_idOr {json : Json D} {name : String} {g : UInt64 → Outcome β}
    (hg : ∀ v, Faultless (g v) P) :
    Faultless (idOr json name >>= g) (json.TextAt name ∧ P) :=
  faultless_optional (fun _ _ => faultless_idText hg) (fun _ => hg _)

theorem faultless_textLoop {xs : List (Json D)} {f : Json D → Outcome α} {g : List α → Outcome β}
    (hf : ∀ x (k : α → Outcome β) Q, (∀ a, Faultless (k a) Q) →
      Faultless (f x >>= k) (x.IsText ∧ Q))
    (hg : ∀ l, l.length = xs.length → Faultless (g l) P) :
    Faultless (xs.mapM f >>= g) ((∀ x ∈ xs, x.IsText) ∧ P) :=
  (faultless_mapM hf xs hg).congr (forEachCond_and _ xs P)

theorem faultless_texts {json : Json D} {name : String} {g : List CStr → Outcome β}
    (hg : ∀ ss, ss.length = json.sizeAt name → Faultless (g ss) P) :
    Faultless (texts json name >>= g) (json.TextsAt name ∧ P) := by
  unfold texts Json.TextsAt
  refine faultless_optional (fun v hv => ?_) (fun hnone => hg [] ?_)
  · refine faultless_textLoop (fun x k Q hk => faultless_text hk) fun ss hss => hg ss ?_
    simp [hss, Json.sizeAt, hv, Json.getArraySize]
  · simp [Json.sizeAt, hnone]

theorem faultless_idTexts {json : Json D} {name : String} {g : List UInt64 → Outcome β}
    (hg : ∀ l, Faultless (g l) P) :
    Faultless (idTexts json name >>= g) (json.TextsAt name ∧ P) := by
  unfold idTexts Json.TextsAt
  exact faultless_optional (fun _ _ => faultless_textLoop (fun _ _ _ hk => faultless_idText hk)
    fun l _ => hg l) (fun _ => hg [])

theorem faultless_tagNames [Zero D] {json : Json D} {name : String}
    {g : List (ItemTag D) → Outcome β}
    (hg : ∀ tags, tags.length = json.sizeAt name → Faultless (g tags) P) :
    Faultless (tagNames json name >>= g) (json.TextsAt name ∧ P) := by
  unfold tagNames
  rw [bind_assoc]
  exact faultless_texts fun ss hss => hg _ (by simpa using hss)

/-- Setting a value of each tag: what follows is reached if the counts agree. -/
theorem faultless_setTags {json : Json D} {name : String} {tags : List (ItemTag D)} {n : ℕ}
    {wrong : ℤ} {set : ItemTag D → Json D → Outcome (ItemTag D)} {cond : Json D → Prop}
    {g : List (ItemTag D) → Outcome β} (htags : tags.length = n)
    (hf : ∀ tag x (k : ItemTag D → Outcome β) Q, (∀ t, Faultless (k t) Q) →
      Faultless (set tag x >>= k) (cond x ∧ Q))
    (hg : ∀ l, l.length = n → Faultless (g l) P) :
    Faultless (setTags json name tags wrong set >>= g)
      (json.CountAt name n →
        (∀ v, json.getObjectItem name = some v → ∀ x ∈ v.items, cond x) ∧ P) := by
  subst htags
  unfold setTags Json.CountAt
  cases json.getObjectItem name with
  | none => simpa using hg tags rfl
  | some array =>
    by_cases hn : array.getArraySize = tags.length
    · have hz : (tags.zip array.items).length = tags.length := by
        simp only [List.length_zip]
        exact min_eq_left hn.ge
      have h := (faultless_mapM (fun p k Q hk => hf p.1 p.2 k Q hk) (tags.zip array.items)
        (fun l hl => hg l (hl.trans hz))).trans (forEachCond_and _ _ P)
      have hc : (∀ p ∈ tags.zip array.items, cond p.2) ↔ ∀ x ∈ array.items, cond x := by
        conv_rhs => rw [← List.map_snd_zip hn.le]
        simp only [List.forall_mem_map]
      simp only [hn, ne_eq, not_true_eq_false, if_false, Option.some.injEq, forall_eq', true_imp_iff]
      exact h.trans (and_congr_left fun _ => hc)
    · simp only [ne_eq, hn, not_false_eq_true, if_true, Option.some.injEq, forall_eq']
      exact iff_of_true (fun h => nomatch h) (fun h => h.elim)

/-- Setting numbers reads no string. -/
theorem faultless_setNumbers {json : Json D} {name : String} {tags : List (ItemTag D)} {n : ℕ}
    {wrong : ℤ} {set : ItemTag D → Json D → ItemTag D} {g : List (ItemTag D) → Outcome β}
    (htags : tags.length = n) (hg : ∀ l, l.length = n → Faultless (g l) P) :
    Faultless (setTags json name tags wrong (fun t x => pure (set t x)) >>= g)
      (json.CountAt name n → P) := by
  have hf : ∀ t x (k : ItemTag D → Outcome β) Q, (∀ t', Faultless (k t') Q) →
      Faultless (pure (set t x) >>= k) (True ∧ Q) := by
    intro t x k Q hk
    rw [pure_bind, true_and]
    exact hk _
  have h : Faultless (setTags json name tags wrong (fun t x => pure (set t x)) >>= g)
      (json.CountAt name n →
        (∀ v, json.getObjectItem name = some v → ∀ x ∈ v.items, True) ∧ P) :=
    faultless_setTags htags hf hg
  exact h.trans (by simp)

/-! ### The word list -/

theorem faultless_word {node : Option (Json D)} {x : Json D} {g : ItemWord → Outcome β}
    (hg : ∀ w, Faultless (g w) P) : Faultless (word node x >>= g) (wordCond node x P) := by
  unfold word wordCond
  simp only [bind_assoc]
  exact faultless_require fun w => faultless_require fun _ => faultless_text fun _ =>
    faultless_use fun _ => hg _

theorem faultless_words {node : Option (Json D)} {json : Json D} {g : List ItemWord → Outcome β}
    (hg : ∀ ws, Faultless (g ws) P) :
    Faultless (words node json >>= g) (WordsCond node json P) := by
  unfold words WordsCond
  cases json.getObjectItem "word" with
  | none => exact hg []
  | some array => exact faultless_mapM (fun x k Q hk => faultless_word hk) array.items fun l _ => hg l

/-! ### Messages -/

theorem faultless_topInfo {json : Json D} {g : TopInfo → Outcome β} (hg : ∀ t, Faultless (g t) P) :
    Faultless (topInfo json >>= g)
      (((intOr json "topflag" (i32 0)).val ≠ 0 →
        json.TextsAt "topsrp" ∧ json.TextsAt "topcircle") ∧ P) := by
  unfold topInfo
  by_cases h : (intOr json "topflag" (i32 0)).val = 0
  · simpa [h] using hg _
  · simp only [h, if_false, bind_assoc, ne_eq, not_false_eq_true, true_imp_iff, and_assoc]
    exact faultless_texts fun _ _ => faultless_texts fun _ _ => hg _

theorem faultless_dataSource {json : Json D} {g : ItemSource → Outcome β}
    (hg : ∀ s, Faultless (g s) P) :
    Faultless (dataSource json >>= g) (json.TextAt "sourcename" ∧ json.TextAt "sourceid" ∧ P) := by
  unfold dataSource
  simp only [bind_assoc]
  exact faultless_textOr fun _ => faultless_idOr fun _ => hg _

/-- The last field is followed by nothing. -/
theorem faultless_last {o : Outcome α} {P : Prop} (h : Faultless o (P ∧ True)) : Faultless o P := by
  rwa [and_true] at h

theorem faultless_parseAction (json : Json D) : Faultless (parseAction json) (ActionReadable json) := by
  unfold parseAction ActionReadable
  exact faultless_require fun _ => faultless_idMember fun _ => faultless_idMember fun _ =>
    faultless_require fun _ => faultless_textOr fun _ => faultless_textOr fun _ =>
    faultless_textOr fun _ => faultless_last <| faultless_textOr fun _ => faultless_pure _

/-- The numbers of the tags are set after their ids, from a list of its own. -/
theorem faultless_tagids {json : Json D} {tags : List (ItemTag D)} {n : ℕ} [Zero D]
    {g : List (ItemTag D) → Outcome β} (htags : tags.length = n)
    (hg : ∀ l, Faultless (g l) True) :
    Faultless (setTags json "tagid" tags (-208) setTagId >>= fun l =>
        setTags json "tagpower" l (-208) setTagPower >>= g)
      (json.CountAt "tagid" n → json.TextsAt "tagid") := by
  have hf : ∀ t x (k : ItemTag D → Outcome β) Q, (∀ t', Faultless (k t') Q) →
      Faultless (setTagId t x >>= k) (x.IsText ∧ Q) := by
    intro t x k Q hk
    unfold setTagId
    rw [bind_assoc]
    exact faultless_idText fun v => hk _
  refine Faultless.congr (faultless_setTags htags hf fun l hl =>
    faultless_setNumbers hl fun l' _ => hg l') ?_
  simp [Json.TextsAt]

theorem faultless_parseItem [Zero D] (h : Host D) (json : Json D) :
    Faultless (parseItem h json) (ItemReadable json) := by
  unfold parseItem ItemReadable
  exact faultless_idMember fun _ => faultless_tagNames fun _ hc => faultless_setNumbers hc fun _ _ =>
    faultless_words fun _ => faultless_tagNames fun _ hs => faultless_setNumbers hs fun _ _ =>
    faultless_tagNames fun _ _ => faultless_topInfo fun _ => faultless_texts fun _ _ =>
    faultless_dataSource fun _ => faultless_tagNames fun _ ht => faultless_tagids ht fun _ =>
    faultless_pure _

theorem faultless_parseSubscribe (json : Json D) : Faultless (parseSubscribe json)
    (json.NeedsText "userid" (json.TextsAt "srp" ∧ json.TextsAt "circle")) := by
  unfold parseSubscribe
  exact faultless_idMember fun _ => faultless_texts fun _ _ => faultless_last <|
    faultless_texts fun _ _ => faultless_pure _

theorem faultless_parseRecommend (json : Json D) : Faultless (parseRecommend json)
    (json.NeedsText "userid" (json.TextAt "zone")) := by
  unfold parseRecommend
  exact faultless_idMember fun _ => faultless_last <| faultless_textOr fun _ => faultless_pure _

theorem faultless_parseHeartbeat (json : Json D) : Faultless (parseHeartbeat json)
    (json.NeedsText "heartbeat" True) := by
  unfold parseHeartbeat
  exact faultless_require fun _ => faultless_text fun _ => faultless_pure _

theorem faultless_parseFeedback (json : Json D) : Faultless (parseFeedback json)
    (json.NeedsText "userid" (json.TextsAt "returnlist")) := by
  unfold parseFeedback
  exact faultless_idMember fun _ => faultless_last <| faultless_idTexts fun _ => faultless_pure _

theorem faultless_parseJson [Zero D] (h : Host D) (json : Json D) :
    Faultless (parseJson h json) (Readable json) := by
  unfold parseJson Readable
  refine faultless_require fun type => ?_
  rw [bind_pure_comp, faultless_map]
  generalize type.valueint.val = n
  unfold parseProtocol
  split
  · exact faultless_map.mpr (faultless_parseAction json)
  · exact faultless_map.mpr (faultless_parseItem h json)
  · exact faultless_map.mpr (faultless_parseSubscribe json)
  · exact faultless_map.mpr (faultless_parseRecommend json)
  · exact faultless_map.mpr (faultless_parseHeartbeat json)
  · exact faultless_map.mpr (faultless_parseFeedback json)
  · simpa only using faultless_code (-888)

end JParse

/-! ### Both front ends -/

/-- No use of an absent value by either front end, whatever the room for the record. -/
def BothTotal [Zero D] (h : Host D) (json : Json D) : Prop :=
  (∀ size, 0 ≤ size → (parseJson h json size 0).out ≠ .fault) ∧ JParse.parseJson h json ≠ .fault

/-- Both front ends return a code exactly on the requests that are readable for both. -/
theorem bothTotal_iff [Zero D] (h : Host D) (json : Json D) :
    BothTotal h json ↔ CenterReadable json ∧ JParse.Readable json := by
  have hcenter : (∀ size, 0 ≤ size → (parseJson h json size 0).out ≠ .fault) ↔ CenterReadable json :=
    exact_parseJson h json 0
  have hmodule : JParse.parseJson h json ≠ .fault ↔ JParse.Readable json :=
    JParse.faultless_parseJson h json
  exact and_congr hcenter hmodule

def heartbeatNumber : Json ℤ :=
  .object [(lit "type", .scalar (i32 5) 5), (lit "heartbeat", .scalar (i32 1) 1)]

/-- The object `{"type":2,"docid":"7","doctype":0,"word":[{"word":"x"}]}`. -/
def wordWithoutCount : Json ℤ :=
  .object [(lit "type", .scalar (i32 2) 2), (lit "docid", .string (.ofLit "7")),
    (lit "doctype", .scalar (i32 0) 0),
    (lit "word", .array [.object [(lit "word", .string (.ofLit "x"))]])]

/-- The string of a number is used by both front ends, and the count of a word that
has none by that of the modules. -/
theorem bothTotal_fails :
    (parseJson ⟨0, fun _ => 0⟩ heartbeatNumber 1024 0).out = .fault ∧
      JParse.parseJson ⟨0, fun _ => 0⟩ heartbeatNumber = .fault ∧
      JParse.parseJson ⟨0, fun _ => 0⟩ wordWithoutCount = .fault ∧
      ¬ BothTotal ⟨0, fun _ => 0⟩ heartbeatNumber ∧
      ¬ BothTotal ⟨0, fun _ => 0⟩ wordWithoutCount :=
  ⟨rfl, rfl, rfl, fun h => h.2 rfl, fun h => h.2 rfl⟩

end PrimaryElection.Framework
