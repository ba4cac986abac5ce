import PrimaryElection.Framework.CenterDecode
import PrimaryElection.Framework.CenterTasks

/-! The connections and the task nodes of the center. A descriptor has a life: it is
accepted, it may ask one request, which is answered as that request, and it is closed. The
books say at which place each open connection and each node is, and how a step moves one
of them there. What a place's node holds is the request that its connection asked. -/

namespace PrimaryElection.Framework.CenterTasks

open CInt Bytes Encoder Util ThreadProcess Runs

variable {D L P : Type}

/-! ### Connections -/

/-- What a request is for the processing: its type and the user and count of a query. -/
def request (json : Json D) : TaskNode where
  typeFlg := ((json.getObjectItem "type").map fun v => v.valueint.val).getD 0
  userId := ((json.getObjectItem "userid").bind idOf).getD 0
  requestNum := ((json.getObjectItem "requestnum").map fun v => v.valueint.val).getD 0
  sendBuf := []

inductive Life (D : Type) where
  | closed
  | opened
  | asked (json : Json D)
  | answered

/-- What may come next at a connection. -/
def Life.next : Life D → Observed D → Option (Life D)
  | .closed, .accepted _ => some .opened
  | .opened, .asked _ json => some (.asked json)
  | .opened, .closed _ => some .closed
  | .asked json, .answered _ e sent => if threadProcess e (request json) = some sent then some .answered else none
  | .answered, .closed _ => some .closed
  | _, _ => none

def Observed.client : Observed D → Option ℤ
  | .accepted client => some client
  | .asked client _ => some client
  | .answered client _ _ => some client
  | .closed client => some client
  | _ => none

def Life.after (client : ℤ) (l : Life D) (o : Observed D) : Option (Life D) :=
  if o.client = some client then l.next o else some l

theorem Life.after_self {client : ℤ} {l : Life D} {o : Observed D} (ho : o.client = some client) :
    l.after client o = l.next o := if_pos ho

/-- Where a descriptor is after what was seen, if that is a life. -/
def life (client : ℤ) (os : List (Observed D)) : Option (Life D) := os.foldlM (Life.after client) .closed

theorem life_concat {client : ℤ} {os : List (Observed D)} {l : Life D} (h : life client os = some l)
    (o : Observed D) : life client (os ++ [o]) = l.after client o := by
  rw [life, List.foldlM_append, show os.foldlM (Life.after client) .closed = some l from h]
  simp

/-! ### Places -/

/-- Where a connection or a node can be. -/
inductive Place where
  | accepted (client : ℤ)
  | receiving (client task : ℤ)
  | queued (task : ℤ)
  | sent (task : ℤ)
  | closed (task : ℤ)

namespace Place

def task : Place → Option ℤ
  | accepted _ => none
  | receiving _ task => some task
  | queued task => some task
  | sent task => some task
  | closed task => some task

def client (node : ℤ → Node) : Place → Option ℤ
  | accepted client => some client
  | receiving client _ => some client
  | queued task => some (node task).client
  | sent task => some (node task).client
  | closed _ => none

def Is (node : ℤ → Node) : Place → Life D → Prop
  | accepted _, l => l = .opened
  | receiving client task, l => l = .opened ∧ (node task).client = client
  | queued task, l => ∃ json, l = .asked json ∧
      ∀ e, threadProcess e (node task).taskNode = threadProcess e (request json)
  | sent _, l => l = .answered
  | closed _, _ => True

end Place

def Listen.place : Listen → Option Place
  | accepting => none
  | accepted client => some (.accepted client)
  | receiving client task => some (.receiving client task)
  | pushing task => some (.queued task)
  | failed client task => some (.receiving client task)
  | closing client => some (.accepted client)

def Process.place : Process → Option Place
  | serving task => some (.queued task)
  | sent task => some (.sent task)
  | closed task => some (.closed task)
  | _ => none

/-- Every node that is out and every open connection is at one place. -/
structure Books (node : ℤ → Node) (os : List (Observed D)) (places : Multiset Place) (out : List ℤ)
    (opened : Finset ℤ) : Prop where
  tasks : places.filterMap Place.task = out
  clients : places.filterMap (Place.client node) = opened.val
  lives : ∀ q ∈ places, ∀ client, q.client node = some client → ∃ l, life client os = some l ∧ q.Is node l
  closed : ∀ client ∉ opened, life client os = some .closed

theorem filterMap_congr {α β : Type} {f g : α → Option β} {s : Multiset α} (h : ∀ a ∈ s, f a = g a) :
    s.filterMap f = s.filterMap g := by
  induction s using Multiset.induction_on with
  | empty => rfl
  | cons a s ih =>
    rw [Multiset.filterMap_cons, Multiset.filterMap_cons, h a (Multiset.mem_cons_self a s),
      ih fun b hb => h b (Multiset.mem_cons_of_mem hb)]

theorem filterMap_cons {α β : Type} (f : α → Option β) (a : α) (s : Multiset α) :
    (a ::ₘ s).filterMap f = ((f a).toList : Multiset β) + s.filterMap f := by
  cases h : f a with
  | none => rw [Multiset.filterMap_cons_none _ _ h, Option.toList_none, Multiset.coe_nil, zero_add]
  | some b =>
    rw [Multiset.filterMap_cons_some _ _ _ h, Option.toList_some, Multiset.coe_singleton, Multiset.singleton_add]

namespace Books

variable {node node' : ℤ → Node} {os : List (Observed D)} {rest : Multiset Place} {q q' : Place} {out : List ℤ}
  {opened : Finset ℤ} {o : Observed D}

theorem Place.frame {task : ℤ} (hn : ∀ p, p ≠ task → node' p = node p) (hq : q.task ≠ some task) :
    q.client node' = q.client node ∧ ∀ l : Life D, q.Is node l → q.Is node' l := by
  have hne : ∀ p, q.task = some p → node' p = node p := fun p hp => hn p fun hc => hq (hc ▸ hp)
  cases q with
  | accepted client => exact ⟨rfl, fun _ h => h⟩
  | receiving client p =>
    refine ⟨rfl, fun l h => ?_⟩
    rw [Place.Is, hne p rfl]
    exact h
  | queued p =>
    rw [Place.client, Place.client, hne p rfl]
    refine ⟨rfl, fun l h => ?_⟩
    rw [Place.Is, hne p rfl]
    exact h
  | sent p =>
    rw [Place.client, Place.client, hne p rfl]
    exact ⟨rfl, fun _ h => h⟩
  | closed p => exact ⟨rfl, fun _ h => h⟩

theorem task_notMem (h : Books node os (q ::ₘ rest) out opened) (hout : out.Nodup) {task : ℤ} (hq : q.task = some task) :
    ∀ r ∈ rest, r.task ≠ some task := by
  have hnodup : (Multiset.filterMap Place.task (q ::ₘ rest)).Nodup := by
    rw [h.tasks]
    exact hout
  rw [Multiset.filterMap_cons_some _ _ _ hq] at hnodup
  intro r hr htask
  exact (Multiset.nodup_cons.mp hnodup).1 ((Multiset.mem_filterMap _ _).mpr ⟨r, hr, htask⟩)

theorem client_notMem (h : Books node os (q ::ₘ rest) out opened) {client : ℤ} (hq : q.client node = some client) :
    ∀ r ∈ rest, r.client node ≠ some client := by
  have hnodup : (Multiset.filterMap (Place.client node) (q ::ₘ rest)).Nodup := by
    rw [h.clients]
    exact opened.nodup
  rw [Multiset.filterMap_cons_some _ _ _ hq] at hnodup
  intro r hr hclient
  exact (Multiset.nodup_cons.mp hnodup).1 ((Multiset.mem_filterMap _ _).mpr ⟨r, hr, hclient⟩)

/-- What is seen of one connection leaves the others. -/
theorem life_of_ne {client : ℤ} {l : Life D} (h : life client os = some l) (ho : o.client ≠ some client) :
    life client (os ++ [o]) = some l := by
  rw [life_concat h, Life.after, if_neg ho]

theorem life_silent {client : ℤ} {l : Life D} (h : life client os = some l) : life client (os ++ [.silent]) = some l :=
  life_of_ne h (by simp [Observed.client])

theorem life_next {client : ℤ} {l : Life D} (h : life client os = some l) (ho : o.client = some client) :
    life client (os ++ [o]) = l.next o := by
  rw [life_concat h, Life.after_self ho]

theorem client_mem (h : Books node os (q ::ₘ rest) out opened) {client : ℤ} (hq : q.client node = some client) :
    client ∈ opened := by
  rw [← Finset.mem_val, ← h.clients]
  exact (Multiset.mem_filterMap _ _).mpr ⟨q, Multiset.mem_cons_self q rest, hq⟩

/-- A connection and its node go to another place. -/
theorem move {task client : ℤ} (h : Books node os (q ::ₘ rest) out opened) (hout : out.Nodup)
    (hq : q.task = some task) (hq' : q'.task = some task) (hc : q.client node = some client)
    (hc' : q'.client node' = some client) (hn : ∀ p, p ≠ task → node' p = node p)
    (ho : o.client = none ∨ o.client = some client)
    (hl : ∀ l, q.Is node l → ∃ l', l.after client o = some l' ∧ q'.Is node' l') :
    Books node' (os ++ [o]) (q' ::ₘ rest) out opened := by
  have hother : ∀ client', client' ≠ client → o.client ≠ some client' := by
    intro client' hne ho'
    rcases ho with ho | ho <;> rw [ho] at ho' <;> cases ho'
    exact hne rfl
  have hframe : ∀ r ∈ rest, r.client node' = r.client node ∧ ∀ l : Life D, r.Is node l → r.Is node' l :=
    fun r hr => Place.frame hn (h.task_notMem hout hq r hr)
  constructor
  · rw [← h.tasks, Multiset.filterMap_cons_some _ _ _ hq, Multiset.filterMap_cons_some _ _ _ hq']
  · rw [← h.clients, Multiset.filterMap_cons_some _ _ _ hc, Multiset.filterMap_cons_some _ _ _ hc']
    congr 1
    exact filterMap_congr fun r hr => (hframe r hr).1
  · intro r hr client' hclient
    rcases Multiset.mem_cons.mp hr with rfl | hr
    · rcases h.lives q (Multiset.mem_cons_self q rest) client hc with ⟨l, hlife, his⟩
      rcases hl l his with ⟨l', hl', his'⟩
      cases hc'.symm.trans hclient
      exact ⟨l', by rw [life_concat hlife, hl'], his'⟩
    · rw [(hframe r hr).1] at hclient
      rcases h.lives r (Multiset.mem_cons_of_mem hr) client' hclient with ⟨l, hlife, his⟩
      refine ⟨l, life_of_ne hlife (hother client' ?_), (hframe r hr).2 l his⟩
      rintro rfl
      exact h.client_notMem hc r hr hclient
  · intro client' hclient
    refine life_of_ne (h.closed client' hclient) (hother client' ?_)
    rintro rfl
    exact hclient (h.client_mem hc)

theorem accept (h : Books node os rest out opened) {client : ℤ} (hc : client ∉ opened) :
    Books node (os ++ [.accepted client]) (.accepted client ::ₘ rest) out (insert client opened) := by
  have hrest : ∀ r ∈ rest, r.client node ≠ some client := by
    intro r hr hclient
    refine hc ?_
    rw [← Finset.mem_val, ← h.clients]
    exact (Multiset.mem_filterMap _ _).mpr ⟨r, hr, hclient⟩
  constructor
  · rw [Multiset.filterMap_cons_none _ _ rfl, h.tasks]
  · rw [Multiset.filterMap_cons_some (Place.client node) _ _ (show _ = some client from rfl), h.clients,
      Finset.insert_val_of_notMem hc]
  · intro r hr client' hclient
    rcases Multiset.mem_cons.mp hr with rfl | hr
    · cases hclient
      exact ⟨.opened, by rw [life_next (h.closed client hc) rfl]; rfl, rfl⟩
    · rcases h.lives r hr client' hclient with ⟨l, hlife, his⟩
      refine ⟨l, life_of_ne hlife ?_, his⟩
      rintro ⟨⟩
      exact hrest r hr hclient
  · intro client' hclient
    rw [Finset.mem_insert, not_or] at hclient
    exact life_of_ne (h.closed client' hclient.2) fun ho => hclient.1 (Option.some.inj ho).symm

theorem get {client task : ℤ} (h : Books node os (.accepted client ::ₘ rest) out opened) (ht : task ∉ out)
    (hn : ∀ p, p ≠ task → node' p = node p) (hc : (node' task).client = client) :
    Books node' (os ++ [.silent]) (.receiving client task ::ₘ rest) (task :: out) opened := by
  have htasks := h.tasks
  have hclients := h.clients
  rw [Multiset.filterMap_cons_none _ _ rfl] at htasks
  have hframe : ∀ r ∈ rest, r.client node' = r.client node ∧ ∀ l : Life D, r.Is node l → r.Is node' l := by
    refine fun r hr => Place.frame hn fun hc => ht ?_
    rw [← Multiset.mem_coe, ← htasks]
    exact (Multiset.mem_filterMap _ _).mpr ⟨r, hr, hc⟩
  constructor
  · rw [Multiset.filterMap_cons_some Place.task _ _ (show _ = some task from rfl), htasks, Multiset.cons_coe]
  · rw [← hclients, Multiset.filterMap_cons_some (Place.client node') _ _ (show _ = some client from rfl),
      Multiset.filterMap_cons_some (Place.client node) _ _ (show _ = some client from rfl)]
    congr 1
    exact filterMap_congr fun r hr => (hframe r hr).1
  · intro r hr client' hclient
    rcases Multiset.mem_cons.mp hr with rfl | hr
    · rcases h.lives _ (Multiset.mem_cons_self _ rest) client' hclient with ⟨l, hlife, his⟩
      exact ⟨l, life_silent hlife, his, hc⟩
    · rw [(hframe r hr).1] at hclient
      rcases h.lives r (Multiset.mem_cons_of_mem hr) client' hclient with ⟨l, hlife, his⟩
      exact ⟨l, life_silent hlife, (hframe r hr).2 l his⟩
  · exact fun client' hclient => life_silent (h.closed client' hclient)

theorem close {client : ℤ} (new : Multiset Place) (h : Books node os (q ::ₘ rest) out opened)
    (hc : q.client node = some client) (hl : ∀ l : Life D, q.Is node l → l.next (.closed client) = some .closed)
    (htasks : new.filterMap Place.task = q.task.toList) (hclients : ∀ r ∈ new, r.client node = none) :
    Books node (os ++ [.closed client]) (new + rest) out (opened.erase client) := by
  have hnone : new.filterMap (Place.client node) = 0 := by
    rw [Multiset.eq_zero_iff_forall_notMem]
    intro c hmem
    rcases (Multiset.mem_filterMap _ _).mp hmem with ⟨r, hr, hrc⟩
    rw [hclients r hr] at hrc
    cases hrc
  have hval := h.clients
  rw [Multiset.filterMap_cons_some _ _ _ hc] at hval
  constructor
  · rw [← h.tasks, Multiset.filterMap_add, htasks, filterMap_cons]
  · rw [Multiset.filterMap_add, hnone, zero_add, Finset.erase_val, ← hval, Multiset.erase_cons_head]
  · intro r hr client' hclient
    rcases Multiset.mem_add.mp hr with hr | hr
    · rw [hclients r hr] at hclient
      cases hclient
    · rcases h.lives r (Multiset.mem_cons_of_mem hr) client' hclient with ⟨l, hlife, his⟩
      refine ⟨l, life_of_ne hlife ?_, his⟩
      rintro ⟨⟩
      exact h.client_notMem hc r hr hclient
  · intro client' hclient
    by_cases heq : client' = client
    · subst heq
      rcases h.lives q (Multiset.mem_cons_self q rest) client' hc with ⟨l, hlife, his⟩
      rw [life_next hlife rfl, hl l his]
    · have hnot : client' ∉ opened := fun hmem => hclient (Finset.mem_erase.mpr ⟨heq, hmem⟩)
      exact life_of_ne (h.closed client' hnot) fun ho => heq (Option.some.inj ho).symm

theorem put {task : ℤ} (new : Multiset Place) (h : Books node os (q ::ₘ rest) out opened) (hq : q.task = some task)
    (htasks : ∀ r ∈ new, r.task = none) (hclients : new.filterMap (Place.client node) = (q.client node).toList)
    (hl : ∀ r ∈ new, ∀ l : Life D, q.Is node l → r.Is node l) :
    Books node (os ++ [.silent]) (new + rest) (out.erase task) opened := by
  have hnone : new.filterMap Place.task = 0 := by
    rw [Multiset.eq_zero_iff_forall_notMem]
    intro c hmem
    rcases (Multiset.mem_filterMap _ _).mp hmem with ⟨r, hr, hrc⟩
    rw [htasks r hr] at hrc
    cases hrc
  have hval := h.tasks
  rw [Multiset.filterMap_cons_some _ _ _ hq] at hval
  constructor
  · rw [Multiset.filterMap_add, hnone, zero_add, ← Multiset.coe_erase, ← hval, Multiset.erase_cons_head]
  · rw [← h.clients, Multiset.filterMap_add, hclients, filterMap_cons]
  · intro r hr client' hclient
    rcases Multiset.mem_add.mp hr with hr | hr
    · have hmem : client' ∈ new.filterMap (Place.client node) := (Multiset.mem_filterMap _ _).mpr ⟨r, hr, hclient⟩
      rw [hclients, Multiset.mem_coe, Option.mem_toList] at hmem
      rcases h.lives q (Multiset.mem_cons_self q rest) client' hmem with ⟨l, hlife, his⟩
      exact ⟨l, life_silent hlife, hl r hr l his⟩
    · rcases h.lives r (Multiset.mem_cons_of_mem hr) client' hclient with ⟨l, hlife, his⟩
      exact ⟨l, life_silent hlife, his⟩
  · exact fun client' hclient => life_silent (h.closed client' hclient)

theorem silent (h : Books node os rest out opened) : Books node (os ++ [.silent]) rest out opened :=
  ⟨h.tasks, h.clients, fun r hr client hc => by
    rcases h.lives r hr client hc with ⟨l, hlife, his⟩
    exact ⟨l, life_silent hlife, his⟩, fun client hc => life_silent (h.closed client hc)⟩

end Books

/-! ### Requests in a node -/

theorem type_ok {json : Json D} {n : ℕ} {wrong missing full size len : ℤ} {g : Unit → Enc Unit} {bs : List UInt8}
    {u : Unit}
    (h : (sizeIs json n wrong >>= fun _ => intField json "type" missing full >>= g) size 0 = ⟨bs, len, .ok u⟩) :
    ∃ type rest, json.getObjectItem "type" = some type ∧ bs = int4 type.valueint ++ rest := by
  simp only [bind_ok_iff, sizeIs_ok_iff, intField_ok_iff] at h
  rcases h with ⟨_, _, _, _, ⟨-, rfl, rfl⟩, ⟨_, _, _, rest, ⟨type, ht, rfl, rfl, -⟩, -, rfl⟩, rfl⟩
  exact ⟨type, rest, ht, rfl⟩

theorem parser_type [Zero D] {h : Host D} {json : Json D} {t : RequestType} {size len : ℤ} {bs : List UInt8} {u : Unit}
    (hp : t.parser h json size 0 = ⟨bs, len, .ok u⟩) :
    ∃ type rest, json.getObjectItem "type" = some type ∧ bs = int4 type.valueint ++ rest := by
  cases t <;> exact type_ok hp

theorem parseRecommend_ok {json : Json D} {size len : ℤ} {bs : List UInt8} {u : Unit}
    (h : parseRecommend json size 0 = ⟨bs, len, .ok u⟩) :
    ∃ type log user uid num, json.getObjectItem "type" = some type ∧ json.getObjectItem "log" = some log ∧
      json.getObjectItem "userid" = some user ∧ idOf user = some uid ∧ json.getObjectItem "requestnum" = some num ∧
      bs = int4 type.valueint ++ (int4 log.valueint ++ (word8 uid ++ int4 num.valueint)) := by
  simp only [parseRecommend, bind_ok_iff, sizeIs_ok_iff, intField_ok_iff, idField_ok_iff] at h
  rcases h with ⟨_, _, _, _, ⟨-, rfl, rfl⟩, ⟨_, _, _, _, ⟨type, ht, rfl, rfl, -⟩, ⟨_, _, _, _, ⟨log, hlog, rfl, rfl, -⟩,
    ⟨_, _, _, _, ⟨user, uid, hu, hid, rfl, rfl, -⟩, ⟨num, hn, rfl, rfl, -⟩, rfl⟩, rfl⟩, rfl⟩, rfl⟩
  exact ⟨type, log, user, uid, num, ht, hlog, hu, hid, hn, rfl⟩

theorem parseJson_code [Zero D] {h : Host D} {json : Json D} {size len : ℤ} {bs : List UInt8} {u : Unit}
    (hp : parseJson h json size 0 = ⟨bs, len, .ok u⟩) :
    ∃ (t : RequestType) (type : Json D), json.getObjectItem "type" = some type ∧ type.valueint.val = t.code := by
  simp only [parseJson, member, bind_ok_iff, require_ok_iff] at hp
  rcases hp with ⟨_, _, type, _, ⟨rfl, rfl, htype⟩, hp, rfl⟩
  generalize hv : type.valueint.val = v at hp
  split at hp
  · exact ⟨.action, type, htype, hv⟩
  · exact ⟨.document, type, htype, hv⟩
  · exact ⟨.subscribe, type, htype, hv⟩
  · exact ⟨.recommend, type, htype, hv⟩
  · exact ⟨.heartbeat, type, htype, hv⟩
  · exact ⟨.feedback, type, htype, hv⟩
  · exact absurd hp fail_not_ok

/-- The processing of a task other than a query reads the type only. -/
theorem threadProcess_congr {e : Env} {t t' : TaskNode} (htype : t.typeFlg = t'.typeFlg) (hbuf : t.sendBuf = t'.sendBuf)
    (hne : t.typeFlg ≠ 4) : threadProcess e t = threadProcess e t' := by
  have hne' : t'.typeFlg ≠ 4 := htype ▸ hne
  have hprocess : process e t = process e t' := by
    simp only [process, if_neg hne', processAction, processDocument, processSubscribe,
      ThreadProcess.processFeedback, htype, hbuf]
  rw [threadProcess, threadProcess, hprocess, htype]

/-- What the processing reads in a node is what the request says. -/
theorem encoded_request [Zero D] {h : Host D} {json : Json D} {size len : ℤ} {bs : List UInt8} {u : Unit}
    (hp : parseJson h json size 0 = ⟨bs, len, .ok u⟩) (n : Node) (e : Env) :
    threadProcess e (n.encoded bs).taskNode = threadProcess e (request json) := by
  rcases parseJson_code hp with ⟨t, type, htype, hcode⟩
  rw [parseJson_eq t htype hcode] at hp
  rcases parser_type hp with ⟨type', rest, htype', rfl⟩
  cases htype.symm.trans htype'
  have hread : ∀ rest, (n.encoded (int4 type.valueint.val ++ rest)).taskNode.typeFlg = type.valueint.val := by
    intro rest
    rw [Node.taskNode, Node.encoded, take_int4_append, int4Val_int4 type.valueint.property.1 type.valueint.property.2]
  have hflg : (request json).typeFlg = type.valueint.val := by
    rw [request, htype]
    rfl
  by_cases hfour : t = .recommend
  · subst hfour
    rcases parseRecommend_ok hp with ⟨type', log, user, uid, num, ht, -, hu, hid, hn, hbs⟩
    cases htype.symm.trans ht
    have hdrop : ∀ bs : List UInt8, (int4 type.valueint.val ++ (int4 log.valueint.val ++ bs)).drop 8 = bs := by
      intro bs
      rw [← List.append_assoc]
      exact List.drop_left' (by simp)
    have hdrop' : ((int4 type.valueint.val ++
        (int4 log.valueint.val ++ (word8 uid ++ int4 num.valueint.val))).drop 16).take 4 =
        int4 num.valueint.val := by
      rw [← List.append_assoc, ← List.append_assoc, List.drop_left' (by simp)]
      exact List.take_of_length_le (by simp)
    have hrequest : request json = ⟨type.valueint.val, uid, num.valueint.val, []⟩ := by
      rw [request, htype, hu, hn, Option.bind_some, hid]
      rfl
    have htask : (n.encoded (int4 type.valueint.val ++ rest)).taskNode = request json := by
      rw [hrequest, hbs, Node.taskNode, Node.encoded]
      dsimp only
      rw [take_int4_append, int4Val_int4 type.valueint.property.1 type.valueint.property.2, hdrop, take_word8_append,
        word8Val_word8, hdrop', int4Val_int4 num.valueint.property.1 num.valueint.property.2]
    rw [htask]
  · apply threadProcess_congr
    · rw [hread, hflg]
    · rfl
    rw [hread, hcode]
    cases t
    case recommend => exact absurd rfl hfour
    all_goals decide

theorem receiveTask_ok [Zero D] {c : Config} {cJSONParse : List UInt8 → Option (Json D)} {p : Peer} {h : Host D}
    {json : Json D} {bs : List UInt8} (hr : receiveTask c cJSONParse p h = .ok (json, bs)) :
    ∃ len u, parseJson h json (toInt32 (c.fwMaxBinarySize - 4)) 0 = ⟨bs, len, .ok u⟩ := by
  unfold receiveTask at hr
  dsimp only at hr
  split at hr
  next => cases hr
  next =>
    split at hr
    next =>
      split at hr
      next => cases hr
      next json' hjson =>
        split at hr
        next bs' len u hp =>
          cases hr
          exact ⟨len, u, hp⟩
        next => cases hr
        next => cases hr
    next => cases hr

end PrimaryElection.Framework.CenterTasks
