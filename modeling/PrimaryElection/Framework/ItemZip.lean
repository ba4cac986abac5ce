import PrimaryElection.Framework.ItemParse

/-! What an accepted item holds. Each array of names gives one tag for each of its
items, and a companion array, which has as many items, sets a value of each; both
relations are between positions. The category has a default entry in place of none. -/

namespace PrimaryElection.Framework

open CInt
open Encoder (Outcome)
open Encoder.Outcome (bind_eq_ok_iff mapM_eq_ok_iff)

variable {D : Type}

/-! ### Related positions -/

section
variable {α β γ : Type}

theorem forall₂_trans {R : α → β → Prop} {S : β → γ → Prop} {T : α → γ → Prop}
    (h : ∀ a b c, R a b → S b c → T a c) {as : List α} {bs : List β} {cs : List γ}
    (hr : List.Forall₂ R as bs) (hs : List.Forall₂ S bs cs) : List.Forall₂ T as cs := by
  induction hr generalizing cs with
  | nil =>
    cases hs
    exact .nil
  | cons hab _ ih =>
    cases hs with
    | cons hbc hrest => exact .cons (h _ _ _ hab hbc) (ih hrest)

theorem forall₂_of_zip {R : α × β → γ → Prop} {as : List α} {bs : List β} {cs : List γ}
    (hlen : as.length = bs.length) (h : List.Forall₂ R (as.zip bs) cs) :
    List.Forall₂ (fun a c => ∃ b, R (a, b) c) as cs ∧
      List.Forall₂ (fun b c => ∃ a, R (a, b) c) bs cs := by
  induction as generalizing bs cs with
  | nil =>
    have hb : bs = [] := List.length_eq_zero_iff.mp hlen.symm
    subst hb
    cases h
    exact ⟨.nil, .nil⟩
  | cons a as ih =>
    cases bs with
    | nil => cases hlen
    | cons b bs =>
      cases h with
      | cons hab hrest =>
        obtain ⟨h₁, h₂⟩ := ih (Nat.succ.inj hlen) hrest
        exact ⟨.cons ⟨b, hab⟩ h₁, .cons ⟨a, hab⟩ h₂⟩

end

namespace JParse

def Spelled (json : Json D) (name : String) (ss : List CStr) : Prop :=
  List.Forall₂ (fun x s => x.valuestring = some s) (json.itemsAt name) ss

/-- The tags are one for each item of the array, in order, and carry its names. -/
def Named (json : Json D) (name : String) (tags : List (ItemTag D)) : Prop :=
  List.Forall₂ (fun x tag => x.valuestring = some tag.tagName) (json.itemsAt name) tags

/-- If the companion array is there, the tags are one for each of its items, in order,
and carry its values. -/
def Carries (json : Json D) (name : String) (carries : Json D → ItemTag D → Prop)
    (tags : List (ItemTag D)) : Prop :=
  ∀ array, json.getObjectItem name = some array → List.Forall₂ carries array.items tags

/-- A tag carries a number as its id, the number that a string spells, or a power. -/
def CarriesInt (x : Json D) (tag : ItemTag D) : Prop := tag.tagId = x.valueint.val

def CarriesId (x : Json D) (tag : ItemTag D) : Prop :=
  ∃ s, x.valuestring = some s ∧ tag.tagId = (strtoul s.bytes).toNat

def CarriesPower [Zero D] (x : Json D) (tag : ItemTag D) : Prop := tag.tagPower = x.valuedouble

/-! ### The loops -/

theorem text_ok {node : Json D} {s : CStr} (h : text node = .ok s) : node.valuestring = some s := by
  unfold text Outcome.use at h
  cases hv : node.valuestring with
  | none => rw [hv] at h; cases h
  | some s' => rw [hv] at h; cases h; rfl

theorem texts_ok {json : Json D} {name : String} {ss : List CStr}
    (h : texts json name = .ok ss) : Spelled json name ss := by
  unfold texts at h
  unfold Spelled Json.itemsAt
  cases hv : json.getObjectItem name with
  | none =>
    rw [hv] at h
    cases h
    exact .nil
  | some array =>
    rw [hv] at h
    exact (mapM_eq_ok_iff.mp h).imp fun x s hx => text_ok hx

theorem tagNames_ok [Zero D] {json : Json D} {name : String} {tags : List (ItemTag D)}
    (h : tagNames json name = .ok tags) : Named json name tags ∧ ∀ tag ∈ tags, tag.tagId = 0 := by
  obtain ⟨ss, hss, h⟩ := bind_eq_ok_iff.mp h
  cases h
  refine ⟨List.forall₂_map_right_iff.mpr (texts_ok hss), fun tag ht => ?_⟩
  obtain ⟨s, -, rfl⟩ := List.mem_map.mp ht
  rfl

/-- Setting a value: tags stay as they are without the array; with it they keep what
`set` keeps and get its values, position by position. -/
theorem setTags_ok {json : Json D} {name : String} {tags tags' : List (ItemTag D)} {wrong : ℤ}
    {set : ItemTag D → Json D → Outcome (ItemTag D)} {Kept : ItemTag D → ItemTag D → Prop}
    {carries : Json D → ItemTag D → Prop} (hrefl : ∀ t, Kept t t)
    (hset : ∀ t x t', set t x = .ok t' → Kept t t' ∧ carries x t')
    (h : setTags json name tags wrong set = .ok tags') :
    List.Forall₂ Kept tags tags' ∧ Carries json name carries tags' ∧
      (json.getObjectItem name = none → tags' = tags) := by
  unfold setTags at h
  unfold Carries
  cases hv : json.getObjectItem name with
  | none =>
    rw [hv] at h
    cases h
    refine ⟨List.forall₂_same.mpr fun t _ => hrefl t, ?_, fun _ => rfl⟩
    intro array ha
    cases ha
  | some array =>
    simp only [hv] at h
    split_ifs at h with hn
    have hlen : tags.length = array.items.length := (not_not.mp hn).symm
    obtain ⟨hkept, hcarries⟩ := forall₂_of_zip hlen (mapM_eq_ok_iff.mp h)
    refine ⟨hkept.imp fun t t' ⟨x, hx⟩ => (hset t x t' hx).1, ?_, fun ha => nomatch ha⟩
    rintro _ ⟨⟩
    exact hcarries.imp fun x t' ⟨t, ht⟩ => (hset t x t' ht).2

/-- The fields of a tag that setting its id, or its power, leaves alone. -/
def SameName (t t' : ItemTag D) : Prop := t'.tagName = t.tagName

def SameId (t t' : ItemTag D) : Prop := t'.tagName = t.tagName ∧ t'.tagId = t.tagId

theorem SameName.refl (t : ItemTag D) : SameName t t := rfl

theorem SameId.refl (t : ItemTag D) : SameId t t := ⟨rfl, rfl⟩

theorem setTagInt_ok {t t' : ItemTag D} {x : Json D} (h : setTagInt t x = .ok t') :
    SameName t t' ∧ CarriesInt x t' := by
  cases h
  exact ⟨rfl, rfl⟩

theorem setTagPower_ok [Zero D] {t t' : ItemTag D} {x : Json D} (h : setTagPower t x = .ok t') :
    SameId t t' ∧ CarriesPower x t' := by
  cases h
  exact ⟨⟨rfl, rfl⟩, rfl⟩

theorem setTagId_ok {t t' : ItemTag D} {x : Json D} (h : setTagId t x = .ok t') :
    SameName t t' ∧ CarriesId x t' := by
  obtain ⟨v, hv, h⟩ := bind_eq_ok_iff.mp h
  cases h
  obtain ⟨s, hs, hv⟩ := bind_eq_ok_iff.mp hv
  cases hv
  exact ⟨rfl, s, text_ok hs, rfl⟩

theorem Named.trans {json : Json D} {name : String} {tags tags' : List (ItemTag D)}
    (h : Named json name tags) (hs : List.Forall₂ SameName tags tags') : Named json name tags' :=
  forall₂_trans (fun _ _ _ hx hn => hx.trans (congrArg some hn.symm)) h hs

def WordOf (x : Json D) (w : ItemWord) : Prop :=
  ∃ n c, x.getObjectItem "word" = some n ∧ n.valuestring = some w.word ∧
    x.getObjectItem "count" = some c ∧ w.count = c.valueint

theorem require_ok {o : Option (Json D)} {missing : ℤ} {v : Json D}
    (h : Outcome.require o missing = .ok v) : o = some v := by
  cases o with
  | none => cases h
  | some v' => cases h; rfl

theorem use_ok {o : Option (Json D)} {v : Json D} (h : Outcome.use o = .ok v) : o = some v := by
  cases o with
  | none => cases h
  | some v' => cases h; rfl

theorem word_ok {node : Option (Json D)} {x : Json D} {w : ItemWord} (h : word node x = .ok w) :
    WordOf x w := by
  obtain ⟨n, hn, h⟩ := bind_eq_ok_iff.mp h
  obtain ⟨_, -, h⟩ := bind_eq_ok_iff.mp h
  obtain ⟨s, hs, h⟩ := bind_eq_ok_iff.mp h
  obtain ⟨c, hc, h⟩ := bind_eq_ok_iff.mp h
  cases h
  exact ⟨n, c, require_ok hn, text_ok hs, use_ok hc, rfl⟩

theorem words_ok {node : Option (Json D)} {json : Json D} {ws : List ItemWord}
    (h : words node json = .ok ws) : List.Forall₂ WordOf (json.itemsAt "word") ws := by
  unfold words at h
  unfold Json.itemsAt
  cases hv : json.getObjectItem "word" with
  | none =>
    rw [hv] at h
    cases h
    exact .nil
  | some array =>
    rw [hv] at h
    exact (mapM_eq_ok_iff.mp h).imp fun x w hx => word_ok hx

/-- The lists of the top information are those of the arrays if the flag is not zero,
and empty if it is. -/
def Topped (json : Json D) (top : TopInfo) : Prop :=
  ((intOr json "topflag" (i32 0)).val ≠ 0 →
    Spelled json "topsrp" top.topSrpId ∧ Spelled json "topcircle" top.topCircleId) ∧
  ((intOr json "topflag" (i32 0)).val = 0 → top.topSrpId = [] ∧ top.topCircleId = [])

theorem topInfo_ok {json : Json D} {top : TopInfo} (h : topInfo json = .ok top) :
    Topped json top := by
  unfold topInfo at h
  by_cases hf : (intOr json "topflag" (i32 0)).val = 0
  · simp only [hf, if_true] at h
    cases h
    exact ⟨fun hne => absurd hf hne, fun _ => ⟨rfl, rfl⟩⟩
  · simp only [hf, if_false] at h
    obtain ⟨srp, hsrp, h⟩ := bind_eq_ok_iff.mp h
    obtain ⟨circle, hcircle, h⟩ := bind_eq_ok_iff.mp h
    cases h
    exact ⟨fun _ => ⟨texts_ok hsrp, texts_ok hcircle⟩, fun he => absurd he hf⟩

/-! ### The item -/

/-- Only one category is given, with an empty name and the id 13. -/
def GivenDefault (json : Json D) : Prop :=
  ∃ x y, json.itemsAt "category" = [x] ∧ x.valuestring = some (.ofLit "") ∧
    json.itemsAt "categoryid" = [y] ∧ y.valueint.val = 13

/-- The tags of an item are its arrays, position by position. -/
structure Zipped [Zero D] (json : Json D) (item : Item D) : Prop where
  category : 0 < json.sizeAt "category" →
    Named json "category" item.category ∧ Carries json "categoryid" CarriesInt item.category
  noCategory : json.sizeAt "category" = 0 → item.category = [⟨.ofLit "", 13, 0⟩]
  category_ne : item.category ≠ []
  default_iff : (∃ power, item.category = [⟨.ofLit "", 13, power⟩]) ↔
    json.sizeAt "category" = 0 ∨ GivenDefault json
  srp : Named json "srp" item.srp ∧ Carries json "srppower" CarriesPower item.srp
  tag : Named json "tag" item.tag ∧ Carries json "tagid" CarriesId item.tag ∧
    Carries json "tagpower" CarriesPower item.tag
  circle : Named json "circle" item.circle
  zone : Spelled json "zone" item.zone
  word : List.Forall₂ WordOf (json.itemsAt "word") item.word
  top : Topped json item.topInfo

theorem category_ok [Zero D] {json : Json D} {names tags : List (ItemTag D)}
    (hn : tagNames json "category" = .ok names)
    (hs : setTags json "categoryid" names (-202) setTagInt = .ok tags) :
    Named json "category" tags ∧ Carries json "categoryid" CarriesInt tags ∧
      (json.getObjectItem "categoryid" = none → ∀ tag ∈ tags, tag.tagId = 0) := by
  obtain ⟨hnamed, hzero⟩ := tagNames_ok hn
  obtain ⟨hkept, hcarries, hnone⟩ := setTags_ok SameName.refl (fun _ _ _ => setTagInt_ok) hs
  refine ⟨hnamed.trans hkept, hcarries, fun ha => ?_⟩
  rw [hnone ha]
  exact hzero

/-- A list of names with a power for each. -/
theorem powers_ok [Zero D] {json : Json D} {name companion : String} {wrong : ℤ}
    {names tags : List (ItemTag D)} (hn : Named json name names)
    (hs : setTags json companion names wrong setTagPower = .ok tags) :
    Named json name tags ∧ Carries json companion CarriesPower tags ∧
      List.Forall₂ SameId names tags := by
  obtain ⟨hkept, hpower, -⟩ := setTags_ok SameId.refl (fun _ _ _ => setTagPower_ok) hs
  exact ⟨hn.trans (hkept.imp fun _ _ h => h.1), hpower, hkept⟩

/-- A list of tags, whose ids are set before their powers. -/
theorem tag_ok [Zero D] {json : Json D} {names ids tags : List (ItemTag D)}
    {wrongId wrongPower : ℤ} (hn : tagNames json "tag" = .ok names)
    (hi : setTags json "tagid" names wrongId setTagId = .ok ids)
    (hp : setTags json "tagpower" ids wrongPower setTagPower = .ok tags) :
    Named json "tag" tags ∧ Carries json "tagid" CarriesId tags ∧
      Carries json "tagpower" CarriesPower tags := by
  obtain ⟨hidKept, hid, -⟩ := setTags_ok SameName.refl (fun _ _ _ => setTagId_ok) hi
  obtain ⟨hnamed, hpower, hkept⟩ := powers_ok ((tagNames_ok hn).1.trans hidKept) hp
  refine ⟨hnamed, fun array ha => ?_, hpower⟩
  exact forall₂_trans (fun _ _ _ ⟨s, hs, heq⟩ hsame => ⟨s, hs, hsame.2.trans heq⟩) (hid array ha) hkept

/-- A single tag with an empty name and the id 13 was given as such. -/
theorem givenDefault_iff {json : Json D} {tags : List (ItemTag D)}
    (hnamed : Named json "category" tags) (hcarries : Carries json "categoryid" CarriesInt tags)
    (hzero : json.getObjectItem "categoryid" = none → ∀ tag ∈ tags, tag.tagId = 0) :
    (∃ power, tags = [⟨.ofLit "", 13, power⟩]) ↔ GivenDefault json := by
  unfold GivenDefault Named at *
  constructor
  · rintro ⟨power, rfl⟩
    obtain ⟨x, xs, hx, hxs, hitems⟩ := List.forall₂_cons_right_iff.mp hnamed
    rw [List.forall₂_nil_right_iff.mp hxs] at hitems
    cases hv : json.getObjectItem "categoryid" with
    | none =>
      have h13 : (13 : ℤ) = 0 := hzero hv _ List.mem_cons_self
      norm_num at h13
    | some array =>
      obtain ⟨y, ys, hy, hys, hids⟩ := List.forall₂_cons_right_iff.mp (hcarries array hv)
      rw [List.forall₂_nil_right_iff.mp hys] at hids
      refine ⟨x, y, hitems, hx, ?_, hy.symm⟩
      rw [Json.itemsAt, hv]
      exact hids
  · rintro ⟨x, y, hx, hs, hy, h13⟩
    rw [hx] at hnamed
    obtain ⟨t, ts, ht, hts, rfl⟩ := List.forall₂_cons_left_iff.mp hnamed
    rw [List.forall₂_nil_left_iff.mp hts] at hcarries ⊢
    unfold Json.itemsAt at hy
    cases hv : json.getObjectItem "categoryid" with
    | none =>
      rw [hv] at hy
      cases hy
    | some array =>
      rw [hv] at hy
      have hpair := hcarries array hv
      rw [show array.items = [y] from hy] at hpair
      cases hpair with
      | cons hid _ =>
        obtain ⟨name, id, power⟩ := t
        have hname : CStr.ofLit "" = name := Option.some.inj (hs.symm.trans ht)
        have hthirteen : id = 13 := hid.trans h13
        exact ⟨power, by rw [hname, hthirteen]⟩

/-- The fields of an accepted item are its arrays zipped. -/
theorem parseItem_zipped [Zero D] {h : Host D} {json : Json D} {item : Item D}
    (hok : parseItem h json = .ok item) : Zipped json item := by
  obtain ⟨itemId, -, hok⟩ := bind_eq_ok_iff.mp hok
  obtain ⟨names, hnames, hok⟩ := bind_eq_ok_iff.mp hok
  obtain ⟨category, hcategory, hok⟩ := bind_eq_ok_iff.mp hok
  obtain ⟨word, hword, hok⟩ := bind_eq_ok_iff.mp hok
  obtain ⟨srps, hsrps, hok⟩ := bind_eq_ok_iff.mp hok
  obtain ⟨srp, hsrp, hok⟩ := bind_eq_ok_iff.mp hok
  obtain ⟨circle, hcircle, hok⟩ := bind_eq_ok_iff.mp hok
  obtain ⟨top, htop, hok⟩ := bind_eq_ok_iff.mp hok
  obtain ⟨zone, hzone, hok⟩ := bind_eq_ok_iff.mp hok
  obtain ⟨source, -, hok⟩ := bind_eq_ok_iff.mp hok
  obtain ⟨tags, htags, hok⟩ := bind_eq_ok_iff.mp hok
  obtain ⟨ids, hids, hok⟩ := bind_eq_ok_iff.mp hok
  obtain ⟨tag, htag, hok⟩ := bind_eq_ok_iff.mp hok
  obtain ⟨hnamed, hcarries, hzero⟩ := category_ok hnames hcategory
  have hlen : category.length = json.sizeAt "category" := by
    rw [← Json.itemsAt_length]
    exact hnamed.length_eq.symm
  obtain ⟨hsrpNamed, hsrpPower, -⟩ := powers_ok (tagNames_ok hsrps).1 hsrp
  have htagAll := tag_ok htags hids htag
  cases hok
  refine ⟨?_, ?_, ?_, ?_, ⟨hsrpNamed, hsrpPower⟩, htagAll, (tagNames_ok hcircle).1, texts_ok hzone,
    words_ok hword, topInfo_ok htop⟩
  · intro hpos
    rw [if_neg (by omega)]
    exact ⟨hnamed, hcarries⟩
  · intro he
    rw [if_pos (by omega)]
  · by_cases he : category.length = 0
    · rw [if_pos he]
      exact List.cons_ne_nil _ _
    · rw [if_neg he]
      exact fun hnil => he (congrArg List.length hnil)
  · by_cases he : category.length = 0
    · rw [if_pos he]
      exact iff_of_true ⟨0, rfl⟩ (.inl (by omega))
    · rw [if_neg he]
      have hne : json.sizeAt "category" ≠ 0 := by omega
      rw [givenDefault_iff hnamed hcarries hzero]
      exact (or_iff_right hne).symm

theorem parseItem_zipped_example : ∃ item,
    parseItem ⟨0, fun _ => 0⟩ taggedItem = .ok item ∧ Zipped taggedItem item :=
  ⟨_, rfl, parseItem_zipped (h := ⟨0, fun _ => 0⟩) rfl⟩

/-- The object `{"docid":"7","category":[""],"categoryid":[13]}`. -/
def defaultItem : Json ℤ :=
  .object [(lit "docid", .string (.ofLit "7")), (lit "category", .array [.string (.ofLit "")]),
    (lit "categoryid", .array [.scalar (i32 13) 13])]

theorem defaultItem_typed : ItemTyped defaultItem := by decide

/-- A category may be given that is the default entry. -/
theorem default_given : ItemTyped defaultItem ∧ defaultItem.sizeAt "category" = 1 ∧
    ∃ item, parseItem ⟨0, fun _ => 0⟩ defaultItem = .ok item ∧
      item.category = [⟨.ofLit "", 13, 0⟩] :=
  ⟨defaultItem_typed, rfl, _, rfl, rfl⟩

end JParse

end PrimaryElection.Framework
