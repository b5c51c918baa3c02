import Mathlib.Data.List.AList
import Hermes.MidHermes

/-!
# Hermes without cryptography

What the operations of `mid_hermes.c` do when they are executed one after the other, said
without keys, tokens, macs and requests. A block is a content and a table of rights
(`Hermes.Doc`); a right says who gave it and whether it *fits*, that is whether it is one to
what is stored now; a `Hermes.Ledger` is a block for each id.

This is an honest description and no ideal one: a right does not fit any more when the block
was deleted, or created again under the same id; a denial of one's own read access removes
nothing but the own update right and reports a failure; an update with rights whose giver has
lost its own is carried out and reports a failure; and a deletion removes the rights of others
only when there are none.

That the code does all this is `Hermes.Env.erased`.
-/

namespace Hermes

/-- A right to read or to update: who gave it, and whether it is one to what is stored. -/
structure Grant where
  /-- Who gave it. -/
  giver : Bytes
  /-- Whether it is one to what is stored. -/
  fits : Bool
  deriving DecidableEq

/-- The rights of a user of a block: everybody who has any can read. -/
structure Right where
  /-- The right to read. -/
  read : Grant
  /-- The right to update. -/
  update : Option Grant
  deriving DecidableEq

namespace Right

/-- The right of either kind. -/
def grant (isUpdate : Bool) (r : Right) : Option Grant := if isUpdate then r.update else some r.read

/-- Rights to something that is not stored any more. -/
def stale (r : Right) : Right :=
  ⟨⟨r.read.giver, false⟩, r.update.map fun g => ⟨g.giver, false⟩⟩

/-- The same rights, given again by one user. -/
def regiven (u : Bytes) (r : Right) : Right := ⟨⟨u, true⟩, r.update.map fun _ => ⟨u, true⟩⟩

/-- Both rights, given by one user. -/
def full (u : Bytes) : Right := ⟨⟨u, true⟩, some ⟨u, true⟩⟩

end Right

/-- A block: the data and the meta, if there are any, and the rights. -/
structure Doc where
  /-- The data and the meta. -/
  content : Option (Bytes × Bytes)
  /-- The rights of the users. -/
  rights : AList fun _ : Bytes => Right

namespace Doc

variable (D : Doc)

/-- No content and no users. -/
def empty : Doc := ⟨none, ∅⟩

/-- The right of a user. -/
def grant (isUpdate : Bool) (u : Bytes) : Option Grant :=
  (D.rights.lookup u).bind (Right.grant isUpdate)

/-- What a user can read. -/
def opens (u : Bytes) : Option (Bytes × Bytes) :=
  if (D.grant false u).any Grant.fits then D.content else none

/-- A user can read what is stored, and has a right to update it. -/
def writes (u : Bytes) : Bool := (D.opens u).isSome && (D.grant true u).isSome

/-- A user can read what is stored, and its right to update fits it. -/
def masters (u : Bytes) : Bool := (D.opens u).isSome && (D.grant true u).any Grant.fits

/-- The right of a user is its own gift, or its giver still has such a right. -/
def giverKept (isUpdate : Bool) (u : Bytes) : Bool :=
  (D.grant isUpdate u).all fun g => g.giver = u || (D.grant isUpdate g.giver).isSome

/-- Nobody but the user has rights. -/
def alone (u : Bytes) : Bool := D.rights.keys.all fun u' => u' = u

/-- The rights, each replaced by another one. -/
def mapRights (f : Right → Right) : AList fun _ : Bytes => Right :=
  ⟨D.rights.entries.map (Sigma.map id fun _ => f), List.NodupKeys.map₂ _ _ D.rights.nodupKeys⟩

/-- The block with other rights of a user. -/
def setRight (u : Bytes) (r : Right) : Doc := { D with rights := D.rights.insert u r }

/-! ### The operations -/

/-- A block is created: its user has both rights, and what rights there were do not fit. -/
def createBlock (u d mt : Bytes) : Doc :=
  ⟨some (d, mt), (D.mapRights Right.stale).insert u (Right.full u)⟩

/-- An update. It is carried out before the givers are looked at. -/
def updateBlock (u d mt : Bytes) : HermesStatus × Doc :=
  if D.masters u then
    (if D.giverKept false u && D.giverKept true u then hmSuccess else 1,
      { D with content := some (d, mt) })
  else (1, D)

/-- A deletion. The rights of others stay, and do not fit any more. -/
def deleteBlock (u : Bytes) : HermesStatus × Doc :=
  if D.masters u then
    (if D.alone u then hmSuccess else hmFail, ⟨none, (D.mapRights Right.stale).erase u⟩)
  else (if (D.opens u).isSome then hmFail else 1, D)

/-- A rotation: all rights are given again. -/
def rotateBlock (u : Bytes) : HermesStatus × Doc :=
  if D.masters u then (hmSuccess, { D with rights := D.mapRights (Right.regiven u) })
  else (hmFail, D)

/-- Read access is given by who can read; the right to update is what it was. -/
def grantReadAccess (knows : Bytes → Bool) (u v : Bytes) : HermesStatus × Doc :=
  if (D.opens u).isSome && knows v then
    (hmSuccess, D.setRight v ⟨⟨u, true⟩, D.grant true v⟩)
  else (hmFail, D)

/-- Update access is given by who has it, to who can read; it fits if that of the giver does. -/
def grantUpdateAccess (knows : Bytes → Bool) (u v : Bytes) : HermesStatus × Doc :=
  match D.grant true u, D.rights.lookup v with
  | some g, some r =>
    if (D.opens u).isSome && knows v then
      (hmSuccess, D.setRight v { r with update := some ⟨u, g.fits⟩ })
    else (hmFail, D)
  | _, _ => (hmFail, D)

/-- Read access is denied by who has a right to update, and the other rights with it. Who denies
itself loses the right to update, and then cannot remove the rest. -/
def denyReadAccess (knows : Bytes → Bool) (u v : Bytes) : HermesStatus × Doc :=
  match D.rights.lookup v with
  | some r =>
    if D.writes u && knows v then
      if v = u then (hmFail, D.setRight v { r with update := none })
      else (hmSuccess, { D with rights := D.rights.erase v })
    else (hmFail, D)
  | none => (hmFail, D)

/-- Update access is denied by who has it. -/
def denyUpdateAccess (knows : Bytes → Bool) (u v : Bytes) : HermesStatus × Doc :=
  match D.rights.lookup v with
  | some r =>
    if D.writes u && knows v then (hmSuccess, D.setRight v { r with update := none })
    else (hmFail, D)
  | none => (hmFail, D)

end Doc

/-- A block for each id. -/
abbrev Ledger := Bytes → Doc

namespace Ledger

/-- No blocks. -/
def empty : Ledger := fun _ => Doc.empty

/-- An operation on one block. -/
def act (L : Ledger) (b : Bytes) (f : Doc → HermesStatus × Doc) : Result × Ledger :=
  (.ofStatus (f (L b)).1, Function.update L b (f (L b)).2)

/-- **What a call does.** `knows` tells the registered users, and `fresh` is the id of a block that
is created without one. -/
def perform (knows : Bytes → Bool) (fresh : Bytes) (c : Call) (L : Ledger) : Result × Ledger :=
  let u := c.user.id
  match c.op with
  | .createBlock id d mt =>
    if d = [] ∨ mt = [] then (⟨hmInvalidParameter, id, none⟩, L)
    else if id.getD fresh = [] ∨ (L (id.getD fresh)).content.isSome then (⟨hmFail, id, none⟩, L)
    else (⟨hmSuccess, some (id.getD fresh), none⟩,
      Function.update L (id.getD fresh) ((L (id.getD fresh)).createBlock u d mt))
  | .readBlock b =>
    if b = [] then (.ofStatus hmInvalidParameter, L)
    else match (L b).opens u with
      | some x => (⟨hmSuccess, none, some x⟩, L)
      | none => (.ofStatus hmFail, L)
  | .updateBlock b d mt =>
    if b = [] ∨ d = [] ∨ mt = [] then (.ofStatus hmInvalidParameter, L)
    else L.act b fun D => D.updateBlock u d mt
  | .deleteBlock b =>
    if b = [] then (.ofStatus hmInvalidParameter, L) else L.act b fun D => D.deleteBlock u
  | .rotateBlock b =>
    if b = [] then (.ofStatus hmInvalidParameter, L) else L.act b fun D => D.rotateBlock u
  | .grantReadAccess b v =>
    if b = [] ∨ v = [] then (.ofStatus hmInvalidParameter, L)
    else L.act b fun D => D.grantReadAccess knows u v
  | .grantUpdateAccess b v =>
    if b = [] ∨ v = [] then (.ofStatus hmInvalidParameter, L)
    else L.act b fun D => D.grantUpdateAccess knows u v
  | .denyReadAccess b v =>
    if b = [] ∨ v = [] then (.ofStatus hmInvalidParameter, L)
    else L.act b fun D => D.denyReadAccess knows u v
  | .denyUpdateAccess b v =>
    if b = [] ∨ v = [] then (.ofStatus hmInvalidParameter, L)
    else L.act b fun D => D.denyUpdateAccess knows u v

/-- **Calls one after the other**, with their results. Ids that are made up are those of blocks
without a content. -/
inductive Performs (knows : Bytes → Bool) : Ledger → List Call → List Result → Ledger → Prop
  /-- No calls. -/
  | nil {L : Ledger} : Performs knows L [] [] L
  /-- A call before the others. -/
  | cons {L L' : Ledger} {fresh : Bytes} {c : Call} {cs : List Call} {rs : List Result}
      (hid : fresh ≠ []) (hfresh : (L fresh).content = none)
      (hrest : Performs knows (L.perform knows fresh c).2 cs rs L') :
      Performs knows L (c :: cs) ((L.perform knows fresh c).1 :: rs) L'

end Ledger

/-! ### What the operations leave -/

namespace Doc

variable {D : Doc}

@[simp] theorem lookup_mapRights (f : Right → Right) (u : Bytes) :
    (D.mapRights f).lookup u = (D.rights.lookup u).map f := List.dlookup_map₂ u

@[simp] theorem keys_mapRights (f : Right → Right) : (D.mapRights f).keys = D.rights.keys :=
  List.map₂_keys _ _

@[simp] theorem content_setRight (u : Bytes) (r : Right) : (D.setRight u r).content = D.content :=
  rfl

/-- The rights that were set, and the others. -/
theorem lookup_setRight (u : Bytes) (r : Right) (u' : Bytes) :
    (D.setRight u r).rights.lookup u' = if u' = u then some r else D.rights.lookup u' := by
  by_cases h : u' = u
  · subst h
    simp [setRight]
  · simp [setRight, h]

theorem any_fits {isUpdate : Bool} {u : Bytes} : (D.grant isUpdate u).any Grant.fits = true ↔
    ∃ r g, D.rights.lookup u = some r ∧ r.grant isUpdate = some g ∧ g.fits = true := by
  rw [Option.any_eq_true]
  constructor
  · rintro ⟨g, hg, hfits⟩
    obtain ⟨r, hr, hg⟩ := Option.bind_eq_some_iff.mp hg
    exact ⟨r, g, hr, hg, hfits⟩
  · rintro ⟨r, g, hr, hg, hfits⟩
    exact ⟨g, Option.bind_eq_some_iff.mpr ⟨r, hr, hg⟩, hfits⟩

/-- What a user opens is the content, if its right to read fits it. -/
theorem opens_eq_some {u : Bytes} {x : Bytes × Bytes} :
    D.opens u = some x ↔
      ∃ r, D.rights.lookup u = some r ∧ r.read.fits = true ∧ D.content = some x := by
  rw [opens, Option.ite_none_right_eq_some, any_fits]
  constructor
  · rintro ⟨⟨r, g, hr, hg, hfits⟩, hx⟩
    cases hg
    exact ⟨r, hr, hfits, hx⟩
  · rintro ⟨r, hr, hfits, hx⟩
    exact ⟨⟨r, r.read, hr, rfl, hfits⟩, hx⟩

/-- Whether a user masters a block it can read depends on its right to update it. -/
theorem masters_eq {u : Bytes} {x : Bytes × Bytes} (hx : D.opens u = some x) :
    D.masters u = (D.grant true u).any Grant.fits := by
  rw [masters, hx]
  rfl

/-! ### The number of users -/

/-- The other block has one user more at most. -/
def Grown (D D' : Doc) : Prop := D'.rights.keys.length ≤ D.rights.keys.length + 1

variable {knows : Bytes → Bool} {u v d mt : Bytes}

theorem grown_self : D.Grown D := Nat.le_succ _

theorem grown_insert {s : AList fun _ : Bytes => Right} {x : Option (Bytes × Bytes)} {r : Right}
    (hs : s.keys.length = D.rights.keys.length) : D.Grown ⟨x, s.insert u r⟩ := by
  rw [Grown, AList.keys_insert, List.length_cons, ← hs]
  exact Nat.succ_le_succ (@List.length_erase_le _ instBEqOfDecidableEq _ _)

theorem grown_erase {s : AList fun _ : Bytes => Right} {x : Option (Bytes × Bytes)}
    (hs : s.keys.length = D.rights.keys.length) : D.Grown ⟨x, s.erase u⟩ := by
  rw [Grown, AList.keys_erase, ← hs]
  exact (@List.length_erase_le _ instBEqOfDecidableEq _ _).trans (Nat.le_succ _)

theorem length_mapRights (f : Right → Right) :
    (D.mapRights f).keys.length = D.rights.keys.length := by rw [keys_mapRights]

theorem grown_createBlock : D.Grown (D.createBlock u d mt) := grown_insert (length_mapRights _)

theorem grown_updateBlock : D.Grown (D.updateBlock u d mt).2 := by
  rw [updateBlock]
  split_ifs <;> exact grown_self

theorem grown_deleteBlock : D.Grown (D.deleteBlock u).2 := by
  rw [deleteBlock]
  split
  · exact grown_erase (length_mapRights _)
  · exact grown_self

theorem grown_rotateBlock : D.Grown (D.rotateBlock u).2 := by
  rw [rotateBlock]
  split_ifs
  · exact (length_mapRights _).le.trans (Nat.le_succ _)
  · exact grown_self

theorem grown_grantReadAccess : D.Grown (D.grantReadAccess knows u v).2 := by
  rw [grantReadAccess]
  split_ifs
  · exact grown_insert rfl
  · exact grown_self

theorem grown_grantUpdateAccess : D.Grown (D.grantUpdateAccess knows u v).2 := by
  unfold grantUpdateAccess
  split
  · split_ifs
    · exact grown_insert rfl
    · exact grown_self
  · exact grown_self

theorem grown_denyReadAccess : D.Grown (D.denyReadAccess knows u v).2 := by
  unfold denyReadAccess
  split
  · split_ifs
    · exact grown_insert rfl
    · exact grown_erase rfl
    · exact grown_self
  · exact grown_self

theorem grown_denyUpdateAccess : D.Grown (D.denyUpdateAccess knows u v).2 := by
  unfold denyUpdateAccess
  split
  · split_ifs
    · exact grown_insert rfl
    · exact grown_self
  · exact grown_self

end Doc

namespace Ledger

variable {L : Ledger} {knows : Bytes → Bool} {fresh : Bytes} {c : Call}

/-- **A call adds one user to a block at most.** -/
theorem length_keys_perform (knows : Bytes → Bool) (fresh : Bytes) (c : Call) (b : Bytes) :
    ((L.perform knows fresh c).2 b).rights.keys.length ≤ (L b).rights.keys.length + 1 := by
  -- an operation changes one document, so it is enough that this one grows by one user at most
  have hset : ∀ {b'} {D : Doc}, (L b').Grown D → (L b).Grown (Function.update L b' D b) := by
    intro b' D hD
    rcases eq_or_ne b b' with rfl | hne
    · rwa [Function.update_self]
    · rw [Function.update_of_ne hne]
      exact Doc.grown_self
  show (L b).Grown ((L.perform knows fresh c).2 b)
  obtain ⟨user, op⟩ := c
  cases op with
  | createBlock id d mt =>
    simp only [perform]
    split_ifs
    · exact Doc.grown_self
    · exact Doc.grown_self
    · exact hset Doc.grown_createBlock
  | readBlock b' =>
    simp only [perform]
    split_ifs
    · exact Doc.grown_self
    · split <;> exact Doc.grown_self
  | updateBlock b' d mt =>
    simp only [perform, act]
    split_ifs
    · exact Doc.grown_self
    · exact hset Doc.grown_updateBlock
  | deleteBlock b' =>
    simp only [perform, act]
    split_ifs
    · exact Doc.grown_self
    · exact hset Doc.grown_deleteBlock
  | rotateBlock b' =>
    simp only [perform, act]
    split_ifs
    · exact Doc.grown_self
    · exact hset Doc.grown_rotateBlock
  | grantReadAccess b' v =>
    simp only [perform, act]
    split_ifs
    · exact Doc.grown_self
    · exact hset Doc.grown_grantReadAccess
  | grantUpdateAccess b' v =>
    simp only [perform, act]
    split_ifs
    · exact Doc.grown_self
    · exact hset Doc.grown_grantUpdateAccess
  | denyReadAccess b' v =>
    simp only [perform, act]
    split_ifs
    · exact Doc.grown_self
    · exact hset Doc.grown_denyReadAccess
  | denyUpdateAccess b' v =>
    simp only [perform, act]
    split_ifs
    · exact Doc.grown_self
    · exact hset Doc.grown_denyUpdateAccess

end Ledger

end Hermes
