import Hermes.Loading

/-!
# Requests that write

The functions that send one writing request, evaluated against a slice: when the request
is accepted, and the slice it leaves. The key store accepts a token if its owner is its
user, or may give it; the data store accepts a version if the old mac is the stored one.

An exchange that changes nothing, because it only reads or because it was refused, is
`Hermes.Idle`.
-/

namespace Hermes

open Interleave

/-- An exchange that leaves the stores as they are. -/
def Idle (e : Event Req.Answer) : Prop :=
  (∀ m b u, keysAfter m e b u = m b u) ∧ ∀ m b, dataAfter m e b = m b

theorem idle_of_reads {e : Event Req.Answer} (he : e.1.Reads) : Idle e := by
  obtain ⟨r, a⟩ := e
  match r with
  | .ks (.getRtoken ..) => exact ⟨fun _ _ _ => rfl, fun _ _ => rfl⟩
  | .ks (.getWtoken ..) => exact ⟨fun _ _ _ => rfl, fun _ _ => rfl⟩
  | .ks (.getIndexedRights ..) => exact ⟨fun _ _ _ => rfl, fun _ _ => rfl⟩
  | .ds (.readBlock _) => exact ⟨fun _ _ _ => rfl, fun _ _ => rfl⟩
  | .getPubKeyById _ => exact ⟨fun _ _ _ => rfl, fun _ _ => rfl⟩
  | .themis _ => exact ⟨fun _ _ _ => rfl, fun _ _ => rfl⟩
  | .ks (.setRtoken ..) => exact he.elim
  | .ks (.setWtoken ..) => exact he.elim
  | .ks (.delRtoken ..) => exact he.elim
  | .ks (.delWtoken ..) => exact he.elim
  | .ds (.createBlock ..) => exact he.elim
  | .ds (.createBlockWithId ..) => exact he.elim
  | .ds (.updateBlock ..) => exact he.elim
  | .ds (.deleteBlock ..) => exact he.elim

theorem idle_of_readAt {E : Env} {b : Bytes} {v : Slice} {l : Hist}
    (hl : ∀ e ∈ l, E.ReadAt b v e) : ∀ e ∈ l, Idle e :=
  fun e he => idle_of_reads (hl e he).1

/-- The outcome of a call that reports a failure and has changed nothing. -/
def Refused (x : Except Stop HermesStatus) (h : Hist) : Prop :=
  (∃ st, st ≠ hmSuccess ∧ x = .ok st) ∧ ∀ e ∈ h, Idle e

/-- **A run of idle exchanges changes nothing.** -/
theorem Env.run_idle {E : Env} {α : Type} (p : Client α) (w : World) (h : Hist)
    (hidle : ∀ e ∈ p.events E.handle w h, Idle e) :
    (p.run E.handle w).2.entry = w.entry ∧ (p.run E.handle w).2.stored = w.stored := by
  refine ⟨Prog.run_frame (fun w r hr => ?_) p w h hidle,
    Prog.run_frame (fun w r hr => ?_) p w h hidle⟩
  · rw [entry_handle]
    funext b u
    exact hr.1 _ _ _
  · rw [stored_handle]
    funext b
    exact hr.2 _ _

/-- An exchange that leaves all entries but one as they are. -/
def Spares (b u : Bytes) (e : Event Req.Answer) : Prop :=
  ∀ m b' u', ¬(b' = b ∧ u' = u) → keysAfter m e b' u' = m b' u'

theorem Idle.spares {e : Event Req.Answer} (he : Idle e) (b u : Bytes) : Spares b u e :=
  fun m b' u' _ => he.1 m b' u'

/-- A run of such exchanges does so, too. -/
theorem Env.run_spares {E : Env} {α : Type} {b u : Bytes} (p : Client α) (w : World) (h : Hist)
    (hspares : ∀ e ∈ p.events E.handle w h, Spares b u e) {b' u' : Bytes}
    (hne : ¬(b' = b ∧ u' = u)) : (p.run E.handle w).2.entry b' u' = w.entry b' u' := by
  refine Prog.run_frame (f := fun w : World => w.entry b' u') (fun w r hr => ?_) p w h hspares
  show (E.handle w r).2.entry b' u' = w.entry b' u'
  rw [entry_handle]
  exact hr _ _ _ hne

namespace Env

variable {E : Env} {α : Type} {b : Bytes} {v : Slice} {h : Hist}
  {Post : Except Stop α → Slice → Hist → Prop}

/-- A request, when its answer and the slice it leaves are known. -/
theorem does_req {r : Req} {k : r.Answer → Client α} {a : r.Answer} {v' : Slice}
    (hr : ∀ w : World, w.slice b = v → (E.handle w r).1 = a ∧ (E.handle w r).2.slice b = v')
    (hk : E.Does b (k a) v' (⟨r, a⟩ :: h) Post) : E.Does b (.req r k) v h Post := by
  intro w hw
  obtain ⟨ha, hv⟩ := hr w hw
  rw [ha, hv]
  exact hk

/-- **Setting a read token**: its owner must be its user, or have an entry. -/
theorem does_setRtoken {u o t : Bytes} {k : Reply Unit → Client α} (hb : b ≠ []) (hu : u ≠ [])
    (ho : o ≠ []) (ht : t ≠ [])
    (hok : u = o ∨ v.entry o ≠ none →
      E.Does b (k (.ok ())) (v.setEntry u (some ⟨t, o, writeToken (v.entry u)⟩))
        (⟨.ks (.setRtoken b u o t), .ok ()⟩ :: h) Post)
    (hfail : u ≠ o → v.entry o = none →
      E.Does b (k (.error .fail)) v (⟨.ks (.setRtoken b u o t), .error .fail⟩ :: h) Post) :
    E.Does b (hermesKeyStoreSetRtoken u b t o >>= k) v h Post := by
  unfold hermesKeyStoreSetRtoken
  rw [if_neg (by tauto), if_pos ht]
  by_cases hown : u ≠ o ∧ v.entry o = none
  · refine does_req (fun w hw => ?_) (hfail hown.1 hown.2)
    subst hw
    have hown : u ≠ o ∧ w.entry b o = none := hown
    rw [handle_setRtoken, if_neg (by tauto), if_pos hown]
    exact ⟨rfl, rfl⟩
  · refine does_req (fun w hw => ?_) (hok ?_)
    · subst hw
      have hown : ¬(u ≠ o ∧ w.entry b o = none) := hown
      rw [handle_setRtoken, if_neg (by tauto), if_neg hown]
      exact ⟨rfl, slice_setEntry _ _⟩
    · tauto

/-- **Setting a write token**: its owner must be its user, or have a write token; and its
user must have an entry. -/
theorem does_setWtoken {u o t : Bytes} {k : Reply Unit → Client α} (hb : b ≠ []) (hu : u ≠ [])
    (ho : o ≠ []) (ht : t ≠ [])
    (hok : ∀ e, u = o ∨ writeToken (v.entry o) ≠ none → v.entry u = some e →
      E.Does b (k (.ok ())) (v.setEntry u (some { e with wtoken := some (t, o) }))
        (⟨.ks (.setWtoken b u o t), .ok ()⟩ :: h) Post)
    (hfail : (u ≠ o ∧ writeToken (v.entry o) = none) ∨ v.entry u = none →
      E.Does b (k (.error .fail)) v (⟨.ks (.setWtoken b u o t), .error .fail⟩ :: h) Post) :
    E.Does b (hermesKeyStoreSetWtoken u b t o >>= k) v h Post := by
  unfold hermesKeyStoreSetWtoken
  rw [if_neg (by tauto), if_pos ht]
  by_cases hown : u ≠ o ∧ writeToken (v.entry o) = none
  · refine does_req (fun w hw => ?_) (hfail (Or.inl hown))
    subst hw
    have hown : u ≠ o ∧ writeToken (w.entry b o) = none := hown
    rw [handle_setWtoken, if_neg (by tauto), if_pos hown]
    exact ⟨rfl, rfl⟩
  · cases he : v.entry u with
    | none =>
      refine does_req (fun w hw => ?_) (hfail (Or.inr he))
      subst hw
      have hown : ¬(u ≠ o ∧ writeToken (w.entry b o) = none) := hown
      have he : w.entry b u = none := he
      rw [handle_setWtoken, if_neg (by tauto), if_neg hown, he]
      exact ⟨rfl, rfl⟩
    | some e =>
      refine does_req (fun w hw => ?_) (hok e (by tauto) he)
      subst hw
      have hown : ¬(u ≠ o ∧ writeToken (w.entry b o) = none) := hown
      have he : w.entry b u = some e := he
      rw [handle_setWtoken, if_neg (by tauto), if_neg hown, he]
      exact ⟨rfl, slice_setEntry _ _⟩

/-- **Replacing the block**: the old mac must be the stored one. -/
theorem does_updateBlock {s : StoredBlock} {blk mt mac old : Bytes}
    {k : Reply (Option Bytes) → Client α} (hb : b ≠ []) (hblk : blk ≠ []) (hmt : mt ≠ [])
    (hmac : mac ≠ []) (hold : old ≠ []) (hs : v.stored = some s)
    (hok : s.mac = old → E.Does b (k (.ok (some b))) (v.setStored (some ⟨blk, mt, mac⟩))
      (⟨.ds (.updateBlock b blk mt mac old), .ok ()⟩ :: h) Post)
    (hfail : s.mac ≠ old → E.Does b (k (.error .fail)) v
      (⟨.ds (.updateBlock b blk mt mac old), .error .fail⟩ :: h) Post) :
    E.Does b (hermesDataStoreSetBlock (some b) blk mt mac (some old) >>= k) v h Post := by
  unfold hermesDataStoreSetBlock
  rw [if_neg (by tauto)]
  by_cases hm : s.mac = old
  · refine does_req (a := (.ok () : Reply Unit)) (fun w hw => ?_) (hok hm)
    subst hw
    have hs : w.stored b = some s := hs
    rw [Option.getD_some, handle_updateBlock, if_neg (by tauto), hs]
    simp only [if_pos hm]
    exact ⟨trivial, slice_setStored _⟩
  · refine does_req (a := (.error .fail : Reply Unit)) (fun w hw => ?_) (hfail hm)
    subst hw
    have hs : w.stored b = some s := hs
    rw [Option.getD_some, handle_updateBlock, if_neg (by tauto), hs]
    simp only [if_neg hm]
    exact ⟨trivial, trivial⟩

/-- **Removing an entry**: who asks must have a write token. -/
theorem does_delRtoken {u o : Bytes} {k : Reply Unit → Client α} (hb : b ≠ []) (hu : u ≠ [])
    (ho : o ≠ [])
    (hok : writeToken (v.entry o) ≠ none → v.entry u ≠ none →
      E.Does b (k (.ok ())) (v.setEntry u none) (⟨.ks (.delRtoken b u o), .ok ()⟩ :: h) Post)
    (hfail : writeToken (v.entry o) = none ∨ v.entry u = none →
      E.Does b (k (.error .fail)) v (⟨.ks (.delRtoken b u o), .error .fail⟩ :: h) Post) :
    E.Does b (hermesKeyStoreSetRtoken u b [] o >>= k) v h Post := by
  unfold hermesKeyStoreSetRtoken
  rw [if_neg (by tauto), if_neg (by simp)]
  by_cases hno : writeToken (v.entry o) = none ∨ v.entry u = none
  · refine does_req (fun w hw => ?_) (hfail hno)
    subst hw
    have hno : writeToken (w.entry b o) = none ∨ w.entry b u = none := hno
    rw [handle_delRtoken, if_neg (by tauto), if_pos hno]
    exact ⟨rfl, rfl⟩
  · refine does_req (fun w hw => ?_) (hok (by tauto) (by tauto))
    subst hw
    have hno : ¬(writeToken (w.entry b o) = none ∨ w.entry b u = none) := hno
    rw [handle_delRtoken, if_neg (by tauto), if_neg hno]
    exact ⟨rfl, slice_setEntry _ _⟩

/-- **Removing a write token**: who asks must have one, and the user an entry. -/
theorem does_delWtoken {u o : Bytes} {k : Reply Unit → Client α} (hb : b ≠ []) (hu : u ≠ [])
    (ho : o ≠ [])
    (hok : ∀ e, writeToken (v.entry o) ≠ none → v.entry u = some e →
      E.Does b (k (.ok ())) (v.setEntry u (some { e with wtoken := none }))
        (⟨.ks (.delWtoken b u o), .ok ()⟩ :: h) Post)
    (hfail : writeToken (v.entry o) = none ∨ v.entry u = none →
      E.Does b (k (.error .fail)) v (⟨.ks (.delWtoken b u o), .error .fail⟩ :: h) Post) :
    E.Does b (hermesKeyStoreSetWtoken u b [] o >>= k) v h Post := by
  unfold hermesKeyStoreSetWtoken
  rw [if_neg (by tauto), if_neg (by simp)]
  by_cases hno : writeToken (v.entry o) = none
  · refine does_req (fun w hw => ?_) (hfail (Or.inl hno))
    subst hw
    have hno : writeToken (w.entry b o) = none := hno
    rw [handle_delWtoken, if_neg (by tauto), if_pos hno]
    exact ⟨rfl, rfl⟩
  · cases he : v.entry u with
    | none =>
      refine does_req (fun w hw => ?_) (hfail (Or.inr he))
      subst hw
      have hno : writeToken (w.entry b o) ≠ none := hno
      have he : w.entry b u = none := he
      rw [handle_delWtoken, if_neg (by tauto), if_neg hno, he]
      exact ⟨rfl, rfl⟩
    | some e =>
      refine does_req (fun w hw => ?_) (hok e hno he)
      subst hw
      have hno : writeToken (w.entry b o) ≠ none := hno
      have he : w.entry b u = some e := he
      rw [handle_delWtoken, if_neg (by tauto), if_neg hno, he]
      exact ⟨rfl, slice_setEntry _ _⟩

/-- **Removing the block**: the old mac must be the stored one. -/
theorem does_remBlock {s : StoredBlock} {old : Bytes} {k : Reply Unit → Client α} (hb : b ≠ [])
    (hold : old ≠ []) (hs : v.stored = some s)
    (hok : s.mac = old → E.Does b (k (.ok ())) (v.setStored none)
      (⟨.ds (.deleteBlock b old), .ok ()⟩ :: h) Post)
    (hfail : s.mac ≠ old → E.Does b (k (.error .fail)) v
      (⟨.ds (.deleteBlock b old), .error .fail⟩ :: h) Post) :
    E.Does b (hermesDataStoreRemBlock b old >>= k) v h Post := by
  unfold hermesDataStoreRemBlock
  rw [if_neg (by tauto)]
  by_cases hm : s.mac = old
  · refine does_req (fun w hw => ?_) (hok hm)
    subst hw
    have hs : w.stored b = some s := hs
    rw [handle_deleteBlock, if_neg (by tauto), hs]
    simp only [if_pos hm]
    exact ⟨trivial, slice_setStored _⟩
  · refine does_req (fun w hw => ?_) (hfail hm)
    subst hw
    have hs : w.stored b = some s := hs
    rw [handle_deleteBlock, if_neg (by tauto), hs]
    simp only [if_neg hm]
    exact ⟨trivial, trivial⟩

/-- **Saving another version of a block**: first the data store has to accept it, then the
tokens are saved. -/
theorem does_save {β : Type} {Post : Except Stop β → Slice → Hist → Prop} {s : StoredBlock}
    {user : User} {blk mt mac old : Bytes} {data : Option Bytes} {rt wt : Option Token}
    {rights : List RightsListNode} {f : Bool × Block → Client β} (hb : b ≠ []) (hblk : blk ≠ [])
    (hmt : mt ≠ []) (hmac : mac ≠ []) (hold : old ≠ []) (hs : v.stored = some s)
    (hok : s.mac = old → E.Does b (midHermesLlBlockSaveTokens
        ⟨user, some b, some blk, data, some mt, none, some mac, rt, wt⟩ rights >>= fun ok =>
          f (ok, ⟨user, some b, some blk, data, some mt, none, some mac, rt, wt⟩))
      (v.setStored (some ⟨blk, mt, mac⟩)) (⟨.ds (.updateBlock b blk mt mac old), .ok ()⟩ :: h) Post)
    (hfail : s.mac ≠ old → E.Does b
        (f (false, ⟨user, some b, some blk, data, some mt, some old, some mac, rt, wt⟩)) v
      (⟨.ds (.updateBlock b blk mt mac old), .error .fail⟩ :: h) Post) :
    E.Does b (midHermesLlBlockSave
      ⟨user, some b, some blk, data, some mt, some old, some mac, rt, wt⟩ rights true true >>= f)
      v h Post := by
  simp only [midHermesLlBlockSave, Bool.not_true, Bool.and_self, Bool.false_eq_true, if_false,
    if_true, midHermesLlBlockSaveData, Prog.bind_assoc]
  refine does_updateBlock hb hblk hmt hmac hold hs (fun hm => ?_) fun hm => hfail hm
  simpa only [Prog.ret_bind, Bool.not_true, Bool.false_eq_true, if_false, Prog.bind_assoc,
    Prog.pure_eq] using hok hm

end Env

end Hermes
