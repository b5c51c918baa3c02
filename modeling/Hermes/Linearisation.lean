import Hermes.Instance
import Hermes.Interleave.Linear
import Hermes.LostUpdate

/-!
# The contents of the blocks are an atomic object

What the users of Hermes share is a map from ids to contents, a content being the data and
the meta of a block (`Hermes.Contents`). The stores hold it in another form: sealed, under
keys that come and go, and every operation is a series of requests that others may get
between. The main result of the file, `Hermes.Env.linearisable`, says that none of this can
be told from outside: any number of calls, interleaved in any way, act on the contents one
after the other, each at one moment between its start and its end.

* A creation, an update, a rotation and a deletion that report success have acted, and a
  reading that reports success returns what the map had at such a moment.
* A call that reports a failure may have acted or not, but not twice. A grant and a denial
  never act: they leave all contents as they are.
* A rotation keeps the bytes of the content. It loads the block, and seals what it has loaded
  again: this is what is stored, as far as the comparison of macs tells. As a mac is one of
  the data and the meta as one stream of bytes (`Hermes.Env.mac_binds_iff`), a rotation that
  races with an update may move the boundary between the two.

The moment is the answer of the data store to the one request that creates, replaces,
removes or reads the block.
-/

namespace Hermes

open Interleave

/-! ### The object -/

/-- The data and the meta of each block, if there is one. -/
abbrev Contents := Bytes → Option (Bytes × Bytes)

/-- What can be done to the contents, atomically. -/
inductive Act where
  /-- A block that was not there gets a content. -/
  | create (b : Bytes) (x : Bytes × Bytes)
  /-- A block that was there gets another content. -/
  | update (b : Bytes) (x : Bytes × Bytes)
  /-- A block that was there is removed. -/
  | delete (b : Bytes)
  /-- The content of a block is read. -/
  | read (b : Bytes) (x : Bytes × Bytes)
  /-- The content of a block is replaced by one of the same bytes. -/
  | rotate (b : Bytes) (x : Bytes × Bytes)

/-- What an action does. -/
def Act.Step : Act → Contents → Contents → Prop
  | .create b x, m, m' => m b = none ∧ m' = Function.update m b (some x)
  | .update b x, m, m' => m b ≠ none ∧ m' = Function.update m b (some x)
  | .delete b, m, m' => m b ≠ none ∧ m' = Function.update m b none
  | .read b x, m, m' => m b = some x ∧ m' = m
  | .rotate b x, m, m' => (∃ x₀, m b = some x₀ ∧ x₀.1 ++ x₀.2 = x.1 ++ x.2) ∧
    m' = Function.update m b (some x)

/-- No blocks. -/
def Contents.empty : Contents := fun _ => none

namespace Env

variable (E : Env)

open Classical in
/-- The content of a stored block: what is sealed in it, under whatever key. -/
noncomputable def contentOf (s : StoredBlock) : Option (Bytes × Bytes) :=
  if h : ∃ d k, s.block = E.themis.encryptSeal k s.metadata d then some (h.choose, s.metadata)
  else none

/-- **The contents the stores hold.** -/
noncomputable def contents (w : World) : Contents := fun b => (w.stored b).bind E.contentOf

/-- What an answer of the data store makes a call do to the contents. -/
def ActOf (E : Env) : Op → Event Req.Answer → Act → Prop
  | .createBlock none d mt, ⟨.ds (.createBlock _ mt' _), .ok b⟩, a =>
    mt' = mt ∧ a = .create b (d, mt)
  | .createBlock (some id) d mt, ⟨.ds (.createBlockWithId id' _ mt' _), .ok _⟩, a =>
    (id' = id ∧ mt' = mt) ∧ a = .create id (d, mt)
  | .updateBlock b d mt, ⟨.ds (.updateBlock b' _ _ _ _), .ok _⟩, a =>
    b' = b ∧ a = .update b (d, mt)
  | .deleteBlock b, ⟨.ds (.deleteBlock b' _), .ok _⟩, a => b' = b ∧ a = .delete b
  | .readBlock b, ⟨.ds (.readBlock b'), .ok (x, mt)⟩, a =>
    b' = b ∧ ∃ k d, x = E.themis.encryptSeal k mt d ∧ a = .read b (d, mt)
  | .rotateBlock b, ⟨.ds (.updateBlock b' blk mt _ _), .ok _⟩, a =>
    b' = b ∧ ∃ k d, blk = E.themis.encryptSeal k mt d ∧ a = .rotate b (d, mt)
  | _, _, _ => False

/-- **What a call has done to the contents**, as the answers of the data store tell. -/
def Point (t : ClientThread) (a : Act) : Prop := ∃ e ∈ t.hist, E.ActOf t.call.op e a

/-- The actions in the order in which they were taken, each with the index of its call. -/
abbrev Linearised (P : Clients) (L : List (ℕ × Act)) : Prop :=
  Interleave.Linearised Act.Step Contents.empty E.contents E.Point P L

variable {E} {allowed : Call → Prop}

/-- What is sealed is the content. -/
theorem contentOf_eq {s : StoredBlock} {k d : Bytes}
    (h : s.block = E.themis.encryptSeal k s.metadata d) : E.contentOf s = some (d, s.metadata) := by
  have hex : ∃ d k, s.block = E.themis.encryptSeal k s.metadata d := ⟨d, k, h⟩
  rw [contentOf, dif_pos hex]
  obtain ⟨k', hk'⟩ := hex.choose_spec
  rw [(E.themis.encryptSeal_inj (hk'.symm.trans h)).2.2]

theorem contents_of_stored {w : World} {b k d : Bytes} {s : StoredBlock} (hs : w.stored b = some s)
    (h : s.block = E.themis.encryptSeal k s.metadata d) :
    E.contents w b = some (d, s.metadata) := by
  rw [contents, hs]
  exact contentOf_eq h

theorem contents_of_none {w : World} {b : Bytes} (hs : w.stored b = none) :
    E.contents w b = none := by
  rw [contents, hs, Option.bind_none]

theorem contents_congr {w w' : World} (h : w'.stored = w.stored) :
    E.contents w' = E.contents w := by
  funext b
  rw [contents, contents, h]

/-- The contents after the data store has changed one block. -/
theorem contents_update {w w' : World} {b : Bytes} {s : Option StoredBlock}
    {x : Option (Bytes × Bytes)} (hs : ∀ b', w'.stored b' = if b' = b then s else w.stored b')
    (hx : s.bind E.contentOf = x) : E.contents w' = Function.update (E.contents w) b x := by
  funext b'
  rcases eq_or_ne b' b with rfl | hne
  · rw [Function.update_self, contents, hs, if_pos rfl, hx]
  · rw [Function.update_of_ne hne, contents, contents, hs, if_neg hne]

end Env

/-! ### One action a call -/

/-- The requests at which a call can act. -/
def Op.Acts : Op → Req → Prop
  | .createBlock .., .ds (.createBlock ..) => True
  | .createBlock .., .ds (.createBlockWithId ..) => True
  | .updateBlock .., .ds (.updateBlock ..) => True
  | .deleteBlock .., .ds (.deleteBlock ..) => True
  | .readBlock .., .ds (.readBlock _) => True
  | .rotateBlock .., .ds (.updateBlock ..) => True
  | _, _ => False

theorem not_acts_ks (op : Op) (r : KeyStoreReq) : ¬op.Acts (.ks r) := by
  cases op <;> exact fun h => h

theorem not_acts_themis (op : Op) (r : ThemisReq) : ¬op.Acts (.themis r) := by
  cases op <;> exact fun h => h

theorem not_acts_getPubKeyById (op : Op) (id : Bytes) : ¬op.Acts (.getPubKeyById id) := by
  cases op <;> exact fun h => h

theorem Req.IsThemis.not_acts {op : Op} {r : Req} (h : r.IsThemis) : ¬op.Acts r := by
  cases r with
  | themis r => exact not_acts_themis op r
  | ks _ => exact h.elim
  | ds _ => exact h.elim
  | getPubKeyById _ => exact h.elim

section Once

variable {K : Req → Prop}

theorem setBlock_once (id : Option Bytes) (d mt mac : Bytes) (old : Option Bytes) :
    (hermesDataStoreSetBlock id d mt mac old).Once K := by
  unfold hermesDataStoreSetBlock
  split_ifs
  · trivial
  · split <;> exact Or.inr fun _ => trivial

theorem saveData_once (bl : Block) : (midHermesLlBlockSaveData bl).Once K := by
  unfold midHermesLlBlockSaveData
  split
  · exact (setBlock_once _ _ _ _ _).bind_only fun r => by cases r <;> trivial
  · trivial

/-- A saving asks the data store once. -/
theorem save_once (hks : ∀ r, ¬K (.ks r)) (bl : Block) (rights : List RightsListNode) :
    (midHermesLlBlockSave bl rights true true).Once K := by
  simp only [midHermesLlBlockSave, Bool.not_true, Bool.and_self, Bool.false_eq_true, if_false,
    if_true]
  refine (saveData_once bl).bind_only fun r => ?_
  rcases r with ⟨_ | _, bl⟩
  · trivial
  · refine Prog.Only.bind (saveTokens_only (saveRtoken_only ?_ ?_)
      (saveWtoken_only ?_ ?_) bl rights) fun r => trivial
    · exact fun _ _ _ _ => hks _
    · exact fun _ _ _ => hks _
    · exact fun _ _ _ _ => hks _
    · exact fun _ _ _ => hks _

end Once

/-- Loading a block, for a call that does not act by it. -/
theorem load_not_acts (op : Op) {u : User} {b : Bytes} (hop : ¬op.Acts (.ds (.readBlock b))) :
    (midHermesLlBlockLoad (midHermesLlBlockCreateEmpty u) b).Only fun r => ¬op.Acts r :=
  load_only (not_acts_ks op _) (not_acts_ks op _) (not_acts_getPubKeyById op) hop
    (.of_themis fun _ => not_acts_themis op _) (fun _ _ => not_acts_themis op _)
    fun _ _ _ => not_acts_themis op _

/-- Loading a block reads it once. -/
theorem load_once {op : Op} {u : User} {b : Bytes} :
    (midHermesLlBlockLoad (midHermesLlBlockCreateEmpty u) b).Once op.Acts := by
  have hload : ∀ isUpdate, (midHermesLlTokenLoad u b isUpdate).Only fun r => ¬op.Acts r :=
    fun isUpdate => tokenLoad_only (not_acts_ks op _) (not_acts_ks op _) (not_acts_getPubKeyById op)
  refine (hload false).bind_once fun rt => (hload true).bind_once fun wt => ?_
  cases rt with
  | none => trivial
  | some rt =>
    refine Prog.Once.bind_only ?_ fun r => ?_
    · unfold hermesDataStoreGetBlock
      split_ifs
      · trivial
      · exact Or.inr fun _ => trivial
    · rcases r with _ | ⟨x, mt⟩
      · trivial
      · exact init_only.mono fun _ hr => hr.not_acts

/-- **A call acts once at most.** -/
theorem once_prog (c : Call) (fuel : ℕ) : (c.prog fuel).Once c.op.Acts := by
  obtain ⟨user, op⟩ := c
  -- the calls that only change rights do not act at all
  have hnever : (∀ r, ¬op.Acts r) → ((⟨user, op⟩ : Call).prog fuel).Once op.Acts :=
    fun h => ((Prog.only_true _).mono fun r _ => h r).once
  cases op with
  | createBlock id d mt =>
    refine Prog.Once.bind_only ?_ fun r => trivial
    unfold midHermesCreateBlock
    split_ifs
    · trivial
    · refine (blockCreate_only.mono fun _ hr => hr.not_acts).bind_once fun r => ?_
      cases r with
      | none => trivial
      | some bl =>
        refine (save_once (not_acts_ks _) bl []).bind_only fun r => ?_
        rcases r with ⟨_ | _, bl⟩ <;> trivial
  | readBlock b =>
    refine Prog.Once.bind_only ?_ fun r => trivial
    unfold midHermesReadBlock
    split_ifs
    · trivial
    · refine load_once.bind_only fun r => ?_
      cases r <;> trivial
  | updateBlock b d mt =>
    refine Prog.Once.bind_only ?_ fun r => trivial
    unfold midHermesUpdateBlock
    split_ifs
    · trivial
    · refine (load_not_acts (.updateBlock b d mt) id).bind_once fun r => ?_
      cases r with
      | none => trivial
      | some bl =>
        refine ((update_only bl d mt).mono fun _ hr => hr.not_acts).bind_once fun r => ?_
        cases r with
        | none => trivial
        | some bl =>
          refine (save_once (not_acts_ks _) bl []).bind_only fun r => ?_
          rcases r with ⟨_ | _, bl⟩ <;> trivial
  | deleteBlock b =>
    refine Prog.Once.bind_only ?_ fun r => trivial
    unfold midHermesDeleteBlock
    split_ifs
    · trivial
    · refine (load_not_acts (.deleteBlock b) id).bind_once fun r => ?_
      cases r with
      | none => trivial
      | some bl =>
        refine (accessRights_only (fun _ _ => .of_ks (not_acts_ks _) _)
          (not_acts_getPubKeyById _)).bind_once fun rights => ?_
        refine Prog.Once.bind_only ?_ fun r => by cases r <;> trivial
        have hdel : ∀ b' u o, ¬(Op.deleteBlock b).Acts (.ks (.delRtoken b' u o)) :=
          fun _ _ _ => not_acts_ks _ _
        unfold midHermesLlBlockDelete
        split
        · simp only [Bool.not_true, Bool.and_self, Bool.false_eq_true, if_false, if_true]
          refine Prog.Once.bind_only ?_ fun r => ?_
          · unfold hermesDataStoreRemBlock
            split_ifs
            · trivial
            · exact Or.inr fun _ => trivial
          · cases r with
            | error _ => trivial
            | ok _ =>
              refine Prog.Only.bind (rtokenDelete_only hdel bl _ _) fun r => ?_
              cases r with
              | error _ => trivial
              | ok _ => exact deleteRights_only hdel (fun _ _ _ => not_acts_ks _ _) bl _ _
        · trivial
  | rotateBlock b =>
    refine Prog.Once.bind_only ?_ fun r => trivial
    unfold midHermesRotateBlock
    split_ifs
    · trivial
    · refine (load_not_acts (.rotateBlock b) id).bind_once fun r => ?_
      cases r with
      | none => trivial
      | some bl =>
        refine (accessRights_only (fun _ _ => .of_ks (not_acts_ks _) _)
          (not_acts_getPubKeyById _)).bind_once fun rights => ?_
        cases rights with
        | none => trivial
        | some rights =>
          refine ((rotate_only bl rights).mono fun _ hr => hr.not_acts).bind_once fun r => ?_
          rcases r with ⟨_ | _, bl, rights⟩
          · trivial
          · refine (save_once (not_acts_ks _) bl rights).bind_only fun r => ?_
            rcases r with ⟨_ | _, bl⟩ <;> trivial
  | grantReadAccess b v => exact hnever fun _ => id
  | grantUpdateAccess b v => exact hnever fun _ => id
  | denyReadAccess b v => exact hnever fun _ => id
  | denyUpdateAccess b v => exact hnever fun _ => id

/-! ### What a successful call was answered -/

/-- The calls that create, read, update, rotate or delete a block. -/
def Op.Accesses : Op → Prop
  | .createBlock .. | .readBlock _ | .updateBlock .. | .rotateBlock _ | .deleteBlock _ => True
  | _ => False

/-- The action that a call with such a result reports. A rotation does not report the content. -/
def Op.Reported : Op → Result → Act → Prop
  | .createBlock _ d mt, r, a => ∃ b, r.id = some b ∧ a = .create b (d, mt)
  | .readBlock b, r, a => ∃ x, r.content = some x ∧ a = .read b x
  | .updateBlock b d mt, _, a => a = .update b (d, mt)
  | .rotateBlock b, _, a => ∃ x, a = .rotate b x
  | .deleteBlock b, _, a => a = .delete b
  | _, _, _ => False

namespace Env

variable {E : Env} {allowed : Call → Prop}

/-- A call that reports an action has had the answer that makes it one. -/
def Acted (E : Env) (c : Call) (h : Hist) (r : Result) : Prop :=
  r.status = hmSuccess → c.op.Accesses →
    ∃ a, c.op.Reported r a ∧ ∀ p, E.Point ⟨c, h, p⟩ a

/-- What a program of a call has been answered when it returns. -/
abbrev Reports (E : Env) {α : Type} (p : Client α) (h : Hist) (Q : Hist → α → Prop) : Prop :=
  p.Within E.Sound (fun _ _ => True) Q h

/-- What a successful saving was answered is what the data store answered. -/
theorem tells_save {bl : Block} {rights : List RightsListNode} {h : Hist}
    {Q : Hist → Block → Prop} (hQ : ∀ {h h' bl}, Q h bl → h <:+ h' → Q h' bl)
    (hdata : E.Reports (midHermesLlBlockSaveData bl) h
      fun h' r => ∀ bl', r = (true, bl') → Q h' bl') :
    E.Reports (midHermesLlBlockSave bl rights true true) h
      fun h' r => ∀ bl', r = (true, bl') → Q h' bl' := by
  simp only [midHermesLlBlockSave, Bool.not_true, Bool.and_self, Bool.false_eq_true, if_false,
    if_true]
  refine hdata.bind fun h₁ r _ hr => ?_
  obtain ⟨_ | _, bl'⟩ := r
  · exact fun bl'' hbl => by cases hbl
  · refine (Prog.within_trivial _).bind fun h₂ saved hs₂ _ => ?_
    intro bl'' hbl
    cases hbl
    exact hQ (hr bl' rfl) hs₂

theorem tells_createBlock {c : Call} {id : Option Bytes} {d mt : Bytes}
    (hop : c.op = .createBlock id d mt) :
    E.Reports (midHermesCreateBlock c.user id d mt) [] fun h' r => r.1 = hmSuccess →
      ∃ b blk mac, r.2 = some b ∧ Created h' b blk mt mac id := by
  have hinvalid : hmInvalidParameter ≠ hmSuccess := by decide
  have hfail : hmFail ≠ hmSuccess := by decide
  unfold midHermesCreateBlock
  split_ifs with hne
  · exact fun hs => absurd hs hinvalid
  · refine ((asks_blockCreate (E := E) rfl hop rfl).all blockCreate_only
      fun e he => by simp at he).forget.bind fun h₁ r _ hr => ?_
    cases r with
    | none => exact trivial
    | some bl =>
      obtain ⟨k, kw, rt, wt, hrt, hwt, rfl⟩ := hr.1 bl rfl
      have hcreates : E.Creates c h₁ id (E.themis.encryptSeal k mt d) mt
          (E.themis.hmac kw [d, mt]) :=
        ⟨d, (not_or.mp hne).1, hop, hr.2, k, kw, ⟨rfl, rfl⟩, hrt.1, hwt.1⟩
      refine (tells_save (Q := fun h' bl => ∃ b blk mac, bl.id = some b ∧
        Created h' b blk mt mac id) ?_ ?_).bind fun h₂ r _ hr => ?_
      · rintro h h' bl ⟨b, blk, mac, hb, hcr⟩ hs
        exact ⟨b, blk, mac, hb, hcr.mono hs⟩
      · refine (asks_saveData (c := c) (fun _ => hcreates) fun o ho => by cases ho).forget.mono ?_
        intro h' r _ hr bl' hbl
        obtain ⟨b, rfl, hcr, -⟩ := hr bl' hbl
        exact ⟨b, _, _, rfl, hcr rfl⟩
      · obtain ⟨_ | _, bl'⟩ := r
        · exact fun hs => absurd hs hfail
        · obtain ⟨b, blk, mac, hb, hcr⟩ := hr bl' rfl
          refine fun _ => ⟨b, blk, mac, ?_, hcr⟩
          -- an id that was given is the id of the block
          cases id with
          | none => exact hb
          | some id => exact congrArg some hcr.1

/-- What a successful saving of a block that replaces another was answered. -/
theorem tells_replace {c : Call} {u : User} {b x mt mac old : Bytes} {data : Option Bytes}
    {rt wt : Option Token} {rights : List RightsListNode} {h : Hist}
    (hJ : E.Updates c h b x mt mac old) :
    E.Reports (midHermesLlBlockSave
        ⟨u, some b, some x, data, some mt, some old, some mac, rt, wt⟩ rights true true) h
      fun h' r => ∀ bl', r = (true, bl') →
        Got h' (.ds (.updateBlock b x mt mac old)) (.ok ()) := by
  refine tells_save (Q := fun h' _ => Got h' (.ds (.updateBlock b x mt mac old)) (.ok ())) ?_ ?_
  · exact fun hg hs => hg.mono hs
  · refine (asks_saveData (c := c) (fun ho => by cases ho) fun o ho => ?_).forget.mono ?_
    · cases ho
      exact ⟨b, rfl, hJ⟩
    · intro h' r _ hr bl' hbl
      obtain ⟨b', -, -, hup⟩ := hr bl' hbl
      obtain ⟨hb, hg⟩ := hup old rfl
      cases hb
      exact hg

theorem tells_updateBlock {c : Call} {b d mt : Bytes} (hop : c.op = .updateBlock b d mt) :
    E.Reports (midHermesUpdateBlock c.user b d mt) [] fun h' s => s = hmSuccess →
      ∃ blk mt mac old, Got h' (.ds (.updateBlock b blk mt mac old)) (.ok ()) := by
  unfold midHermesUpdateBlock
  split_ifs with hne
  · exact fun hs => absurd hs (by decide)
  · refine (asks_load (E := E) rfl (by rw [hop]; rfl) fun e he => by simp at he).forget.bind
      fun h₁ r _ hr => ?_
    cases r with
    | none => exact fun hs => absurd hs (by decide)
    | some bl =>
      refine (asks_update rfl hop (hr bl rfl)).forget.bind fun h₂ r _ hr => ?_
      cases r with
      | none => exact fun hs => absurd hs (by decide)
      | some bl =>
        obtain ⟨k, kw, rt, wt, old, rfl, hrt, hwt, hold⟩ := hr bl rfl
        have hupdates : E.Updates c h₂ b (E.themis.encryptSeal k mt d) mt
            (E.themis.hmac kw [d, mt]) old := by
          refine ⟨hold, ?_⟩
          simp only [hop, true_and]
          exact ⟨fun hd => hne (Or.inr (Or.inl hd)), k, kw, hrt.keyOf, hwt.keyOf, rfl, rfl⟩
        refine (tells_replace hupdates).bind fun h₃ r _ hr => ?_
        obtain ⟨_ | _, bl'⟩ := r
        · exact fun hs => absurd hs (by decide)
        · exact fun _ => ⟨_, _, _, _, hr bl' rfl⟩

theorem tells_rotateBlock {c : Call} {b : Bytes} (hop : c.op = .rotateBlock b) (fuel : ℕ) :
    E.Reports (midHermesRotateBlock fuel c.user b) [] fun h' s => s = hmSuccess →
      ∃ k d mt mac old,
        Got h' (.ds (.updateBlock b (E.themis.encryptSeal k mt d) mt mac old)) (.ok ()) := by
  unfold midHermesRotateBlock
  split_ifs
  · exact fun hs => absurd hs (by decide)
  · have hload := (asks_load (E := E) (c := c) (h := []) rfl (by rw [hop]; rfl)
      fun e he => by simp at he).draws_eq (load_only (b := b) id id (fun _ => id) id
        ⟨fun _ _ _ => id, fun _ _ _ => id⟩ (fun _ _ => id) fun _ _ _ => id)
    refine hload.forget.bind fun h₁ r _ hr => ?_
    cases r with
    | none => exact fun hs => absurd hs (by decide)
    | some bl =>
      obtain ⟨hbl, hdr₁⟩ := hr
      have hbl := hbl bl rfl
      refine ((asks_accessRights (c := c) (h := h₁) fuel hbl.id_eq.1).draws_eq
        (accessRights_only (fun _ _ => .of_ks (fun _ => id) _) fun _ => id)).forget.bind
          fun h₂ r hs₂ hr₂ => ?_
      cases r with
      | none => exact fun hs => absurd hs (by decide)
      | some rights =>
        obtain ⟨hnodes, hdr₂⟩ := hr₂
        refine (asks_rotate rfl hop (hbl.mono hs₂) (hdr₂.trans hdr₁) rights
          (hnodes rights rfl)).forget.bind fun h₃ r _ hrot => ?_
        rcases r with ⟨_ | _, bl', ns⟩
        · exact fun hs => absurd hs (by decide)
        · obtain ⟨k, kw, k₀, d, mt, rt, wt, old, rfl, hrt, hwt, hld, hold, -, -⟩ :=
            hrot bl' ns rfl
          -- what replaces the block is made of what was loaded and drawn
          have hupdates : E.Updates c h₃ b (E.themis.encryptSeal k mt d) mt
              (E.themis.hmac kw [d, mt]) old := by
            refine ⟨hold, ?_⟩
            simp only [hop, true_and]
            exact ⟨k₀, d, k, kw, hld, hrt.1, hwt.1, rfl, rfl⟩
          refine (tells_replace hupdates).bind fun h₄ r _ hr => ?_
          obtain ⟨_ | _, bl'⟩ := r
          · exact fun hs => absurd hs (by decide)
          · exact fun _ => ⟨_, _, _, _, _, hr bl' rfl⟩

theorem tells_remBlock {b mac : Bytes} {h : Hist} :
    E.Reports (hermesDataStoreRemBlock b mac) h fun h' r => ∀ x, r = .ok x →
      Got h' (.ds (.deleteBlock b mac)) (.ok ()) := by
  unfold hermesDataStoreRemBlock
  split_ifs
  · exact fun x hx => by cases hx
  · refine ⟨trivial, fun a _ x hx => ?_⟩
    obtain rfl : a = .ok () := hx
    exact got_head

theorem tells_deleteBlock {c : Call} {b : Bytes} (hop : c.op = .deleteBlock b) (fuel : ℕ) :
    E.Reports (midHermesDeleteBlock fuel c.user b) [] fun h' s => s = hmSuccess →
      ∃ old, Got h' (.ds (.deleteBlock b old)) (.ok ()) := by
  unfold midHermesDeleteBlock
  split_ifs with hne
  · exact fun hs => absurd hs (by decide)
  · refine (asks_load (E := E) rfl (by rw [hop]; rfl) fun e he => by simp at he).forget.bind
      fun h₁ r _ hr => ?_
    cases r with
    | none => exact fun hs => absurd hs (by decide)
    | some bl =>
      have hid := (hr bl rfl).id_eq.1
      refine (Prog.within_trivial _).bind fun h₂ rights _ _ => ?_
      refine Prog.Within.bind (Q := fun h' r => r = true →
        ∃ old, Got h' (.ds (.deleteBlock b old)) (.ok ())) ?_ fun h₃ r _ hr => ?_
      · unfold midHermesLlBlockDelete
        cases hmac : bl.mac with
        | none =>
          rw [hid]
          exact fun hf => by cases hf
        | some mac =>
          rw [hid]
          simp only [Bool.not_true, Bool.and_self, Bool.false_eq_true, if_false, if_true]
          refine tells_remBlock.bind fun h₄ r _ hr => ?_
          cases r with
          | error _ => exact fun hf => by cases hf
          | ok _ =>
            refine (Prog.within_trivial _).mono fun h₅ _ hs₅ _ _ => ?_
            exact ⟨_, (hr () rfl).mono hs₅⟩
      · cases r with
        | false => exact fun hs => absurd hs (by decide)
        | true => exact fun _ => hr rfl

/-- A call that returns tells what it was answered. -/
theorem tells_prog (c : Call) (fuel : ℕ) :
    E.Reports (c.prog fuel) [] (E.Acted c) := by
  obtain ⟨user, op⟩ := c
  -- the calls that only change rights report nothing
  have hnever : ¬op.Accesses →
      E.Reports ((⟨user, op⟩ : Call).prog fuel) [] (E.Acted ⟨user, op⟩) := fun hop =>
    (Prog.within_trivial _).mono fun _ _ _ _ _ hacc => absurd hacc hop
  cases op with
  | createBlock id d mt =>
    refine (tells_createBlock (c := ⟨user, .createBlock id d mt⟩) rfl).bind
      fun h₁ r _ hr hs _ => ?_
    obtain ⟨b, blk, mac, hb, hcr⟩ := hr hs
    refine ⟨.create b (d, mt), ⟨b, hb, rfl⟩, fun _ => ?_⟩
    cases id with
    | none => exact ⟨_, hcr, rfl, rfl⟩
    | some id =>
      obtain ⟨rfl, hcr⟩ := hcr
      exact ⟨_, hcr, ⟨rfl, rfl⟩, rfl⟩
  | readBlock b =>
    refine ((asks_readBlock (c := ⟨user, .readBlock b⟩) rfl).forget.accounted trivial).bind
      fun h₁ r _ hr hs _ => ?_
    obtain ⟨hloaded, hacc⟩ := hr
    obtain ⟨k, d, mt, hcontent, -, x, hread, hopen⟩ := hloaded hs
    obtain ⟨-, -, hx, -⟩ := hacc.of_mem hopen
    obtain rfl : x = E.themis.encryptSeal k mt d := hx
    exact ⟨.read b (d, mt), ⟨_, hcontent, rfl⟩, fun _ => ⟨_, hread, rfl, k, d, rfl, rfl⟩⟩
  | updateBlock b d mt =>
    refine (tells_updateBlock (c := ⟨user, .updateBlock b d mt⟩) rfl).bind
      fun h₁ r _ hr hs _ => ?_
    obtain ⟨blk, mt', mac, old, hg⟩ := hr hs
    exact ⟨.update b (d, mt), rfl, fun _ => ⟨_, hg, rfl, rfl⟩⟩
  | deleteBlock b =>
    refine (tells_deleteBlock (c := ⟨user, .deleteBlock b⟩) rfl fuel).bind
      fun h₁ r _ hr hs _ => ?_
    obtain ⟨old, hg⟩ := hr hs
    exact ⟨.delete b, rfl, fun _ => ⟨_, hg, rfl, rfl⟩⟩
  | rotateBlock b =>
    refine (tells_rotateBlock (c := ⟨user, .rotateBlock b⟩) rfl fuel).bind
      fun h₁ r _ hr hs _ => ?_
    obtain ⟨k, d, mt, mac, old, hg⟩ := hr hs
    exact ⟨.rotate b (d, mt), ⟨_, rfl⟩, fun _ => ⟨_, hg, rfl, k, d, rfl, rfl⟩⟩
  | grantReadAccess b v => exact hnever id
  | grantUpdateAccess b v => exact hnever id
  | denyReadAccess b v => exact hnever id
  | denyUpdateAccess b v => exact hnever id

/-! ### What one answer does -/

/-- An answer by which a call acts is to a request at which it can act. -/
theorem ActOf.acts {op : Op} {e : Event Req.Answer} {a : Act} (h : E.ActOf op e a) :
    op.Acts e.1 := by
  unfold ActOf at h
  split at h
  · trivial
  · trivial
  · trivial
  · trivial
  · trivial
  · trivial
  · exact h.elim

/-- A request at which a call cannot act leaves open what it has done. -/
theorem point_of_not_acts {c : Call} {h : Hist} {e : Event Req.Answer} {p p' : Client Result}
    (he : ¬c.op.Acts e.1) (a : Act) : E.Point ⟨c, e :: h, p'⟩ a ↔ E.Point ⟨c, h, p⟩ a := by
  simp only [Point, List.mem_cons, exists_eq_or_imp]
  exact or_iff_right fun ha => he ha.acts

/-- Nothing has been done before the first request at which a call can act. -/
theorem not_point {c : Call} {h : Hist} {p : Client Result} (hh : ∀ e ∈ h, ¬c.op.Acts e.1)
    (a : Act) : ¬E.Point ⟨c, h, p⟩ a :=
  fun ⟨e, he, ha⟩ => hh e he ha.acts

/-- What is done by the first request at which a call can act. -/
theorem point_of_first {c : Call} {h : Hist} {e : Event Req.Answer} {p : Client Result}
    (hh : ∀ e ∈ h, ¬c.op.Acts e.1) (a : Act) : E.Point ⟨c, e :: h, p⟩ a ↔ E.ActOf c.op e a := by
  simp only [Point, List.mem_cons, exists_eq_or_imp]
  exact or_iff_left (not_point (p := p) hh a)

/-- A request at which its call cannot act leaves all contents alone. -/
theorem contents_of_not_acts {w : World} {c : Call} {h : Hist} {r : Req}
    (hJ : E.Justified c h r) (hr : ¬c.op.Acts r) : E.contents (E.handle w r).2 = E.contents w := by
  funext b
  rcases stored_cases w r b with heq | ⟨blk, mt, mac, he, -, -, -⟩ |
    ⟨blk, mt, mac, old, s, he, -, -, -, -⟩ | ⟨old, s, he, -, -, -⟩
  · rw [contents, contents, heq]
  · refine absurd ?_ hr
    obtain ⟨id, d, -, hop, -⟩ := creates_of_event he hJ
    rcases he with he | he <;>
    · obtain rfl := congrArg Sigma.fst he
      exact hop ▸ trivial
  · refine absurd ?_ hr
    obtain rfl := congrArg Sigma.fst he
    rcases hJ.cases with ⟨d, hop, -⟩ | ⟨hop, -⟩ <;> exact hop ▸ trivial
  · refine absurd ?_ hr
    obtain rfl := congrArg Sigma.fst he
    obtain ⟨hop, -⟩ : c.op = .deleteBlock b ∧ _ := hJ
    exact hop ▸ trivial

/-- What an answer makes of a call that has not acted, and of the contents: nothing, or the
call acts, and the contents are what the action leaves. -/
def ActsBy (E : Env) (w : World) (op : Op) (r : Req) : Prop :=
  (E.contents (E.handle w r).2 = E.contents w ∧ ∀ a, ¬E.ActOf op ⟨r, (E.handle w r).1⟩ a) ∨
  ∃ a, a.Step (E.contents w) (E.contents (E.handle w r).2) ∧
    ∀ a', E.ActOf op ⟨r, (E.handle w r).1⟩ a' ↔ a' = a

/-- A request that the data store refuses changes nothing. -/
theorem contents_of_stored_eq {w : World} {r : Req} {x : r.Answer} (hx : (E.handle w r).1 = x)
    (hsame : dataAfter w.stored ⟨r, x⟩ = w.stored) :
    E.contents (E.handle w r).2 = E.contents w := by
  refine contents_congr ?_
  rw [stored_handle, hx, hsame]

/-- The contents after a request that the data store accepts. -/
theorem contents_of_changed {w : World} {r : Req} {x : r.Answer} {b : Bytes}
    {s : Option StoredBlock} {y : Option (Bytes × Bytes)} (hx : (E.handle w r).1 = x)
    (hs : ∀ b', dataAfter w.stored ⟨r, x⟩ b' = if b' = b then s else w.stored b')
    (hy : s.bind E.contentOf = y) :
    E.contents (E.handle w r).2 = Function.update (E.contents w) b y := by
  refine contents_update (fun b' => ?_) hy
  rw [stored_handle, hx, hs]

section Acting

variable {w : World} {c : Call} {h : Hist}

theorem actsBy_createBlock {blk mt mac : Bytes} (hJ : E.Creates c h none blk mt mac) :
    E.ActsBy w c.op (.ds (.createBlock blk mt mac)) := by
  obtain ⟨d, -, hop, -, k, kw, hv, -, -⟩ := hJ
  rw [ActsBy, hop]
  cases ha : (E.handle w (.ds (.createBlock blk mt mac))).1 with
  | error f => exact Or.inl ⟨contents_of_stored_eq ha rfl, fun a => id⟩
  | ok b =>
    refine Or.inr ⟨.create b (d, mt), ⟨contents_of_none (createBlock_ok ha).1, ?_⟩, fun a' => ?_⟩
    · exact contents_of_changed ha (fun _ => rfl) (contentOf_eq hv.1)
    · exact and_iff_right rfl

theorem actsBy_createBlockWithId {id blk mt mac : Bytes}
    (hJ : E.Creates c h (some id) blk mt mac) :
    E.ActsBy w c.op (.ds (.createBlockWithId id blk mt mac)) := by
  obtain ⟨d, -, hop, -, k, kw, hv, -, -⟩ := hJ
  rw [ActsBy, hop]
  cases ha : (E.handle w (.ds (.createBlockWithId id blk mt mac))).1 with
  | error f => exact Or.inl ⟨contents_of_stored_eq ha rfl, fun a h => h⟩
  | ok _ =>
    refine Or.inr ⟨.create id (d, mt), ⟨contents_of_none (createBlockWithId_ok ha), ?_⟩,
      fun a' => ?_⟩
    · exact contents_of_changed ha (fun _ => rfl) (contentOf_eq hv.1)
    · exact and_iff_right ⟨rfl, rfl⟩

/-- A block that is stored has a content. -/
theorem WellFormed.contents_eq {b : Bytes} {s : StoredBlock} (hw : E.WellFormed w)
    (hs : w.stored b = some s) :
    ∃ k d, s.block = E.themis.encryptSeal k s.metadata d ∧
      E.contents w b = some (d, s.metadata) := by
  obtain ⟨-, k, kw, d, hsealed⟩ := hw.stored hs
  exact ⟨k, d, hsealed.version.1, contents_of_stored hs hsealed.version.1⟩

theorem actsBy_updateBlock {b d mt b' blk mt' mac old : Bytes} (hw : E.WellFormed w)
    (hop : c.op = .updateBlock b d mt) (hJ : E.Updates c h b' blk mt' mac old) :
    E.ActsBy w c.op (.ds (.updateBlock b' blk mt' mac old)) := by
  rcases hJ.cases with ⟨d', hop', -, k, kw, -, -, hv⟩ | ⟨hop', -⟩
  · cases hop.symm.trans hop'
    rw [ActsBy, hop]
    cases ha : (E.handle w (.ds (.updateBlock b blk mt mac old))).1 with
    | error f => exact Or.inl ⟨contents_of_stored_eq ha rfl, fun a h => h⟩
    | ok _ =>
      obtain ⟨s, hs, -⟩ := updateBlock_ok ha
      obtain ⟨k', d', -, hcontents⟩ := hw.contents_eq hs
      refine Or.inr ⟨.update b (d, mt), ⟨?_, ?_⟩, fun a' => and_iff_right rfl⟩
      · rw [hcontents]
        exact Option.some_ne_none _
      · exact contents_of_changed ha (fun _ => rfl) (contentOf_eq hv.1)
  · cases hop.symm.trans hop'

/-- **A rotation keeps the bytes of the content.** It replaces the block by one of the content
that it loaded, and these are the bytes of the content that is stored, since the macs agree. -/
theorem actsBy_rotateBlock {b b' blk mt mac old : Bytes} (hw : E.WellFormed w)
    (hacc : Prog.Accounted E.Sound (E.Justified c) h) (hop : c.op = .rotateBlock b)
    (hJ : E.Updates c h b' blk mt mac old) :
    E.ActsBy w c.op (.ds (.updateBlock b' blk mt mac old)) := by
  have hloaded := hJ.1
  rcases hJ.cases with ⟨d, hop', -⟩ | ⟨hop', k₀, d, k, kw, hl, -, -, hv⟩
  · cases hop.symm.trans hop'
  · cases hop.symm.trans hop'
    rw [ActsBy, hop]
    cases ha : (E.handle w (.ds (.updateBlock b blk mt mac old))).1 with
    | error f => exact Or.inl ⟨contents_of_stored_eq ha rfl, fun a h => h⟩
    | ok _ =>
      obtain ⟨s, hs, hold⟩ := updateBlock_ok ha
      -- the mac that was sent is one of what was loaded, and the stored one of what is stored
      obtain ⟨k', kw', d', mt', hl', -, hmac'⟩ := hloaded
      obtain ⟨rfl, rfl⟩ := hl.opened.unique hacc hl'.opened
      obtain ⟨-, key, kw₀, d₀, hsealed⟩ := hw.stored hs
      have hbytes := (E.themis.hmac_inj (hsealed.version.2.symm.trans (hold.trans hmac'))).2
      refine Or.inr ⟨.rotate b (d, mt), ⟨⟨(d₀, s.metadata), ?_, ?_⟩, ?_⟩, fun a' => ?_⟩
      · exact contents_of_stored hs hsealed.version.1
      · simpa using hbytes
      · exact contents_of_changed ha (fun _ => rfl) (contentOf_eq hv.1)
      · constructor
        · rintro ⟨-, k', d', hblock, rfl⟩
          rw [(E.themis.encryptSeal_inj (hv.1.symm.trans hblock)).2.2]
        · rintro rfl
          exact ⟨rfl, k, d, hv.1, rfl⟩

theorem actsBy_deleteBlock {b b' old : Bytes} (hw : E.WellFormed w)
    (hop : c.op = .deleteBlock b) (hop' : c.op = .deleteBlock b') :
    E.ActsBy w c.op (.ds (.deleteBlock b' old)) := by
  cases hop.symm.trans hop'
  rw [ActsBy, hop]
  cases ha : (E.handle w (.ds (.deleteBlock b old))).1 with
  | error f => exact Or.inl ⟨contents_of_stored_eq ha rfl, fun a h => h⟩
  | ok _ =>
    obtain ⟨s, hs, -⟩ := deleteBlock_ok ha
    obtain ⟨k', d', -, hcontents⟩ := hw.contents_eq hs
    refine Or.inr ⟨.delete b, ⟨?_, ?_⟩, fun a' => and_iff_right rfl⟩
    · rw [hcontents]
      exact Option.some_ne_none _
    · exact contents_of_changed ha (fun _ => rfl) rfl

theorem actsBy_readBlock {b b' : Bytes} (hw : E.WellFormed w) (hop : c.op = .readBlock b) :
    E.ActsBy w c.op (.ds (.readBlock b')) := by
  rw [ActsBy, hop]
  cases ha : (E.handle w (.ds (.readBlock b'))).1 with
  | error f => exact Or.inl ⟨contents_of_stored_eq ha rfl, fun a h => h⟩
  | ok x =>
    have hsame : E.contents (E.handle w (.ds (.readBlock b'))).2 = E.contents w :=
      contents_of_stored_eq ha rfl
    obtain ⟨s, hs, rfl⟩ := readBlock_ok ha
    obtain ⟨k, d, hblock, hcontents⟩ := hw.contents_eq hs
    rcases eq_or_ne b' b with rfl | hne
    · refine Or.inr ⟨.read b' (d, s.metadata), ⟨hcontents, hsame⟩, fun a' => ?_⟩
      constructor
      · rintro ⟨-, k', d', hblock', rfl⟩
        rw [(E.themis.encryptSeal_inj (hblock.symm.trans hblock')).2.2]
      · rintro rfl
        exact ⟨rfl, k, d, hblock, rfl⟩
    · exact Or.inl ⟨hsame, fun a h => hne h.1⟩

/-- **A request at which its call can act is the point at which it acts**, or has no effect. -/
theorem actsBy_of_acts {r : Req} (hw : E.WellFormed w)
    (hacc : Prog.Accounted E.Sound (E.Justified c) h) (hJ : E.Justified c h r)
    (hr : c.op.Acts r) : E.ActsBy w c.op r := by
  have hcall : ∀ op, c.op = op → op.Acts r → E.ActsBy w c.op r := by
    intro op hop hacts
    unfold Op.Acts at hacts
    split at hacts
    · exact actsBy_createBlock hJ
    · exact actsBy_createBlockWithId hJ
    · exact actsBy_updateBlock hw hop hJ
    · exact actsBy_deleteBlock hw hop hJ.1
    · exact actsBy_readBlock hw hop
    · exact actsBy_rotateBlock hw hacc hop hJ
    · exact hacts.elim
  exact hcall c.op rfl hr

end Acting

/-! ### Runs -/

/-- The calls of a reachable pool act once at most, and tell what they were answered. -/
theorem Reachable.acting {P : Clients} (hP : E.Reachable allowed P) :
    ∀ t ∈ P.threads, t.AsksOnce (fun c r => c.op.Acts r) ∧
      E.Reports t.prog t.hist (E.Acted t.call) := by
  obtain ⟨rands, hrun⟩ := hP
  refine hrun.threads (T := fun t => t.AsksOnce (fun c r => c.op.Acts r) ∧
    E.Reports t.prog t.hist (E.Acted t.call)) ?_ ?_ fun t ht => by simp at ht
  · rintro c p ⟨⟨hreg, -⟩, fuel, rfl⟩
    exact ⟨Or.inl ⟨once_prog c fuel, fun e he => by simp at he⟩, tells_prog c fuel⟩
  · rintro P c h r k a w ha ⟨honce, htells⟩
    exact ⟨honce.answered a, htells.2 a (honest_sound P r a w ha)⟩

/-- **One answer of the honest stores** leaves the contents alone and nothing more done, or it is
the point at which its call acts. -/
theorem Reachable.acts {P : Clients} (hP : E.Reachable allowed P) {i : ℕ} {c : Call} {h : Hist}
    {r : Req} {k : r.Answer → Client Result} {x : r.Answer} {w : World}
    (hi : P.threads[i]? = some ⟨c, h, .req r k⟩) (hx : (E.honest allowed).answer P r x w) :
    (E.contents w = E.contents P.state ∧
      ∀ a, E.Point ⟨c, ⟨r, x⟩ :: h, k x⟩ a ↔ E.Point ⟨c, h, .req r k⟩ a) ∨
    ∃ a, a.Step (E.contents P.state) (E.contents w) ∧ (∀ a', ¬E.Point ⟨c, h, .req r k⟩ a') ∧
      ∀ a', E.Point ⟨c, ⟨r, x⟩ :: h, k x⟩ a' ↔ a' = a := by
  obtain ⟨rfl, rfl⟩ := honest_answer hx
  have hmem := List.mem_of_getElem? hi
  have ht := hP.honest _ hmem
  have hw := hP.wellFormed.1
  by_cases hr : c.op.Acts r
  · have hfirst := (hP.acting _ hmem).1.not_mem hr
    have hnot : ∀ a, ¬E.Point ⟨c, h, .req r k⟩ a := not_point hfirst
    rcases actsBy_of_acts hw ht.accounts.1 ht.justified hr with ⟨hsame, hno⟩ | ⟨a, hstep, hyes⟩
    · refine Or.inl ⟨hsame, fun a => ?_⟩
      rw [point_of_first hfirst]
      exact iff_of_false (hno a) (hnot a)
    · refine Or.inr ⟨a, hstep, hnot, fun a' => ?_⟩
      rw [point_of_first hfirst]
      exact hyes a'
  · exact Or.inl ⟨contents_of_not_acts ht.justified hr,
      fun a => point_of_not_acts hr a⟩

theorem Reachable.step {P P' : Clients} (hP : E.Reachable allowed P)
    (hs : (E.honest allowed).Step P P') : E.Reachable allowed P' := by
  obtain ⟨rands, hrun⟩ := hP
  exact ⟨rands, hrun.tail hs⟩

/-- The contents at the beginning. -/
theorem linearised_empty (rands : ℕ → HmToken) : E.Linearised ⟨World.empty rands, []⟩ [] := by
  refine Interleave.linearised_nil ?_
  funext b
  exact contents_of_none rfl

/-- **The contents of the blocks are an atomic object.** Whatever has happened so far, and in
whatever order it has been seen to happen, any further run adds actions at the end of this
order, by calls that have not finished yet, such that the contents are the ones these actions
lead to, one after the other, each call acting once at most. A creation, a reading, an update,
a rotation or a deletion that reports success has acted, and reports what it has done. -/
theorem linearisable {P P' : Clients} {L : List (ℕ × Act)} (hP : E.Reachable allowed P)
    (hL : E.Linearised P L) (hrun : (E.honest allowed).Runs P P') :
    ∃ L', E.Linearised P' (L ++ L') ∧
      (∀ i a t, (i, a) ∈ L' → P.threads[i]? = some t → t.Live) ∧
      ∀ i c h r, P'.threads[i]? = some ⟨c, h, .ret r⟩ → r.status = hmSuccess → c.op.Accesses →
        ∃ a, c.op.Reported r a ∧ (i, a) ∈ L ++ L' := by
  have hP' : E.Reachable allowed P' := hrun.invariant hP fun _ _ => Reachable.step
  have hstart : ∀ c p, (E.honest allowed).starts c p → ∀ a, ¬E.Point ⟨c, [], p⟩ a := by
    rintro c p - a ⟨e, he, -⟩
    exact not_got_nil he
  obtain ⟨L', hL'⟩ := hL.runs hrun hP (fun _ _ => Reachable.step) hstart
    fun P i c h r k x w hP hi hx => hP.acts hi hx
  refine ⟨L', hL', fun i a t hmem ht => hL.live hL' hrun hmem ht, ?_⟩
  intro i c h r hi hs hacc
  obtain ⟨a, hrep, hpoint⟩ := (hP'.acting _ (List.mem_of_getElem? hi)).2 hs hacc
  exact ⟨a, hrep, (hL'.point_iff i a).mpr ⟨_, hi, hpoint _⟩⟩

end Env

/-- Alice shares a block with Bob; he starts to read it, and she updates it before he is done. -/
def readDuringUpdate : List (Move Call) :=
  Move.oneByOne 16 (sharedWithBob [9]) 0 ++ (.start ⟨bob, .readBlock [9]⟩ ::
    .start ⟨alice, .updateBlock [9] [3] [4]⟩ :: (List.replicate 6 (.step 3) ++
      (List.replicate 20 (.step 4) ++ List.replicate 10 (.step 3))))

/-- A thread of the pool has returned. -/
theorem returned_of_any {P : Clients} {i : ℕ} {c : Call} {r : Result}
    (h : P.threads[i]?.any (fun t => t.call = c ∧ t.prog.value? = some r) = true) :
    ∃ h, P.threads[i]? = some ⟨c, h, .ret r⟩ := by
  obtain ⟨⟨c', h', p⟩, ht, hr⟩ := (Option.any_eq_true _ _).mp h
  obtain ⟨rfl, hp⟩ : c' = c ∧ p.value? = some r := by simpa using hr
  obtain rfl := Prog.value?_eq_some.mp hp
  exact ⟨h', ht⟩

/-- The creation, the reading and the update have all acted, in some order. -/
theorem Env.linearisable_readDuringUpdate :
    ∃ L, demoEnv.Linearised (demoPlay readDuringUpdate) L ∧
      (0, Act.create [9] ([1], [2])) ∈ L ∧ (3, Act.read [9] ([1], [2])) ∈ L ∧
      (4, Act.update [9] ([3], [4])) ∈ L := by
  have hstarts : ∀ c ∈ Move.starts readDuringUpdate, demoEnv.Registered c.user ∧ True := by
    intro c hc
    simp only [readDuringUpdate, Move.starts_append, Move.starts_oneByOne, Move.starts_start,
      Move.starts_replicate, List.mem_append, List.mem_cons, List.append_nil] at hc
    rcases hc with hc | rfl | rfl | hc
    · exact ⟨registered_sharedWithBob c hc, trivial⟩
    · exact ⟨registered_bob, trivial⟩
    · exact ⟨registered_alice, trivial⟩
    · simp at hc
  have hrun : (demoEnv.honest fun _ => True).Runs ⟨World.empty demoRands, []⟩
      (demoPlay readDuringUpdate) :=
    System.runs_play Env.honest_handle _ (fun c hc => ⟨hstarts c hc, 8, rfl⟩) _
  obtain ⟨L, hL, -, hacted⟩ := Env.linearisable ⟨demoRands, .refl⟩
    (Env.linearised_empty demoRands) hrun
  have hcreate : (demoPlay readDuringUpdate).threads[0]?.any (fun t =>
      t.call = ⟨alice, .createBlock (some [9]) [1] [2]⟩ ∧
      t.prog.value? = some ⟨hmSuccess, some [9], none⟩) = true := by decide +kernel
  have hread : (demoPlay readDuringUpdate).threads[3]?.any (fun t =>
      t.call = ⟨bob, .readBlock [9]⟩ ∧
      t.prog.value? = some ⟨hmSuccess, none, some ([1], [2])⟩) = true := by decide +kernel
  have hupdate : (demoPlay readDuringUpdate).threads[4]?.any (fun t =>
      t.call = ⟨alice, .updateBlock [9] [3] [4]⟩ ∧
      t.prog.value? = some (.ofStatus hmSuccess)) = true := by decide +kernel
  refine ⟨L, hL, ?_, ?_, ?_⟩
  · obtain ⟨h, hi⟩ := returned_of_any hcreate
    obtain ⟨a, ha, hmem⟩ := hacted 0 _ _ _ hi rfl trivial
    obtain ⟨b, hb, rfl⟩ := ha
    cases hb
    exact hmem
  · obtain ⟨h, hi⟩ := returned_of_any hread
    obtain ⟨a, ha, hmem⟩ := hacted 3 _ _ _ hi rfl trivial
    obtain ⟨x, hx, rfl⟩ := ha
    cases hx
    exact hmem
  · obtain ⟨h, hi⟩ := returned_of_any hupdate
    obtain ⟨a, ha, hmem⟩ := hacted 4 _ _ _ hi rfl trivial
    cases ha
    exact hmem

end Hermes
