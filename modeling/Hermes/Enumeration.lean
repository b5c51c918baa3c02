import Hermes.MidHermesLl.Block

/-!
# Any answers to an enumeration of users

`mid_hermes_ll_block_access_rights` asks the key store for the users of a block, one index
after the other until it is refused, and takes it for granted that there is one at index `0`.
Whoever answers decides whether it returns: here the answers to these requests are given, and
all others are arbitrary (`Hermes.answering`). The first refusal ends the loop, unless it is
the very first answer, which ends the process (`Hermes.accessRights_returns_iff`).
-/

namespace Hermes

open Interleave

/-- The request is not one for the user of an index. -/
def Req.NotIndexed : Req → Prop
  | .ks (.getIndexedRights ..) => False
  | _ => True

/-- Stores that answer anything: `ids` are the answers to the requests for the user of an
index, one after the other, and `other` those to all other requests, by their position. -/
def answering (ids : ℕ → Reply (Bytes × UInt32)) (other : ℕ → (r : Req) → r.Answer)
    (s : ℕ × ℕ) : (r : Req) → r.Answer × (ℕ × ℕ)
  | .ks (.getIndexedRights _ _) => (ids s.1, s.1 + 1, s.2 + 1)
  | r => (other s.2 r, s.1, s.2 + 1)

/-! ### The parts of the loop return -/

theorem total_getToken {isUpdate : Bool} {u b : Bytes} :
    (hermesKeyStoreGetToken isUpdate u b).Total Req.NotIndexed := by
  unfold hermesKeyStoreGetToken
  split_ifs
  · trivial
  · exact ⟨trivial, fun _ => trivial⟩
  · exact ⟨trivial, fun _ => trivial⟩

theorem total_userLoad {u : Bytes} : (midHermesLlUserLoad u).Total Req.NotIndexed := by
  refine Prog.Total.bind ?_ fun r => by cases r <;> trivial
  unfold hermesCredentialStoreGetPublicKey
  split_ifs
  · trivial
  · exact ⟨trivial, fun _ => trivial⟩

theorem total_userLoadC {u : Bytes} : (midHermesLlUserLoadC u).Total Req.NotIndexed := by
  unfold midHermesLlUserLoadC
  split_ifs
  · trivial
  · exact total_userLoad

theorem total_tokenLoadC {isUpdate : Bool} {u b : Bytes} :
    (midHermesLlTokenLoadC u b isUpdate).Total Req.NotIndexed := by
  unfold midHermesLlTokenLoadC
  split_ifs
  · trivial
  · refine Prog.Total.bind total_getToken fun r => ?_
    rcases r with _ | ⟨t, o⟩
    · trivial
    · refine Prog.Total.bind total_userLoadC fun user => ?_
      cases user with
      | none => trivial
      | some user => exact Prog.Total.bind total_userLoad fun owner => by cases owner <;> trivial

/-- What is done for one user returns. -/
theorem total_accessRightsNode {bl : Block} {b u : Bytes} {rights : List RightsListNode} :
    (midHermesLlBlockAccessRightsNode bl b u rights).Total Req.NotIndexed := by
  refine Prog.Total.bind total_userLoadC fun user => ?_
  split_ifs
  · trivial
  · refine Prog.Total.bind total_tokenLoadC fun rtoken => ?_
    refine Prog.Total.bind total_tokenLoadC fun wtoken => ?_
    cases user <;> cases rtoken <;> trivial

/-! ### The loop -/

section Loop

variable {ids : ℕ → Reply (Bytes × UInt32)} {other : ℕ → (r : Req) → r.Answer} {bl : Block}
  {b : Bytes}

variable (ids other) in
theorem answering_other (s : ℕ × ℕ) {r : Req} (hr : r.NotIndexed) :
    (answering ids other s r).2.1 = s.1 := by
  match r, hr with
  | .ks (.setRtoken ..), _ => rfl
  | .ks (.setWtoken ..), _ => rfl
  | .ks (.getRtoken ..), _ => rfl
  | .ks (.getWtoken ..), _ => rfl
  | .ks (.delRtoken ..), _ => rfl
  | .ks (.delWtoken ..), _ => rfl
  | .ds _, _ => rfl
  | .getPubKeyById _, _ => rfl
  | .themis _, _ => rfl

variable (ids other bl b) in
/-- What is done for one user takes none of the answers for an index. -/
theorem run_node (u : Bytes) (rights : List RightsListNode) (s : ℕ × ℕ) :
    ∃ r n, (midHermesLlBlockAccessRightsNode bl b u rights).run (answering ids other) s =
      (.ok r, (s.1, n)) := by
  have htotal : (midHermesLlBlockAccessRightsNode bl b u rights).Total Req.NotIndexed :=
    total_accessRightsNode
  obtain ⟨r, s', hrun, hs⟩ := htotal.run (f := Prod.fst)
    (fun s r hr => answering_other ids other s hr) s
  exact ⟨r, s'.2, hrun.trans (by rw [← hs])⟩

variable (ids other bl b) in
/-- One turn of the loop: it gives up, or the next answer for an index decides. -/
theorem run_loop_succ (fuel : ℕ) (i : KeyStoreIterator) (rights : List RightsListNode)
    (s : ℕ × ℕ) :
    ((midHermesLlBlockAccessRightsLoop bl b (fuel + 1) i rights).run (answering ids other) s).1 =
        .ok none ∨
      ∃ rights' s', s'.1 = s.1 + 1 ∧
        (midHermesLlBlockAccessRightsLoop bl b (fuel + 1) i rights).run (answering ids other) s =
          match ids s.1 with
          | .error _ => (.ok (some rights'), s')
          | .ok (u, mask) => (midHermesLlBlockAccessRightsLoop bl b fuel
              ⟨i.blockId, u, mask, i.currentIndex + 1⟩ rights').run (answering ids other) s' := by
  obtain ⟨r, n, hnode⟩ := run_node ids other bl b i.currentUserId rights s
  rw [midHermesLlBlockAccessRightsLoop, Prog.run_bind_of_ok hnode]
  cases r with
  | none => exact Or.inl rfl
  | some rights' =>
    refine Or.inr ⟨rights', (s.1 + 1, n + 1), rfl, ?_⟩
    simp only [hermesKeyStoreIteratorNext, Prog.req_bind, Prog.run_req, answering]
    cases ids s.1 <;> rfl

/-- **The loop ends with the first refusal**, if not before. -/
theorem run_loop_ok {n : ℕ} : ∀ {fuel : ℕ} {s : ℕ × ℕ}, (∃ e, ids (s.1 + n) = .error e) → n < fuel →
    ∀ (i : KeyStoreIterator) (rights : List RightsListNode), ∃ r,
      ((midHermesLlBlockAccessRightsLoop bl b fuel i rights).run (answering ids other) s).1 =
        .ok r := by
  induction n with
  | zero =>
    rintro fuel s ⟨e, he⟩ hfuel i rights
    obtain ⟨fuel, rfl⟩ := Nat.exists_eq_succ_of_ne_zero (Nat.ne_zero_of_lt hfuel)
    rcases run_loop_succ ids other bl b fuel i rights s with
      hnone | ⟨rights', s', -, hrun⟩
    · exact ⟨none, hnone⟩
    · rw [Nat.add_zero] at he
      rw [he] at hrun
      exact ⟨some rights', congrArg Prod.fst hrun⟩
  | succ n ih =>
    rintro fuel s ⟨e, he⟩ hfuel i rights
    obtain ⟨fuel, rfl⟩ := Nat.exists_eq_succ_of_ne_zero (Nat.ne_zero_of_lt hfuel)
    rcases run_loop_succ ids other bl b fuel i rights s with
      hnone | ⟨rights', s', hs', hrun⟩
    · exact ⟨none, hnone⟩
    · rw [hrun]
      cases ids s.1 with
      | error _ => exact ⟨some rights', rfl⟩
      | ok x =>
        refine ih ⟨e, ?_⟩ (Nat.lt_of_succ_lt_succ hfuel) _ _
        rw [hs', ← he]
        congr 1
        omega

/-- **The loop does not stop with an assertion**, whatever it is answered. -/
theorem run_loop_ne_assertion (fuel : ℕ) (i : KeyStoreIterator) (rights : List RightsListNode)
    (s : ℕ × ℕ) :
    ((midHermesLlBlockAccessRightsLoop bl b fuel i rights).run (answering ids other) s).1 ≠
      .error .assertion := by
  induction fuel generalizing i rights s with
  | zero =>
    intro h
    cases h
  | succ fuel ih =>
    rcases run_loop_succ ids other bl b fuel i rights s with
      hnone | ⟨rights', s', -, hrun⟩
    · rw [hnone]
      intro h
      cases h
    · rw [hrun]
      cases ids s.1 with
      | error _ =>
        intro h
        cases h
      | ok x => exact ih _ _ _

end Loop

/-! ### Answers that keep the loop going -/

/-- Every request is granted, with something. -/
def granting (_ : ℕ) : (r : Req) → r.Answer
  | .ks (.setRtoken ..) => .ok ()
  | .ks (.setWtoken ..) => .ok ()
  | .ks (.getRtoken ..) => .ok ([1], [1])
  | .ks (.getWtoken ..) => .ok ([1], [1])
  | .ks (.delRtoken ..) => .ok ()
  | .ks (.delWtoken ..) => .ok ()
  | .ks (.getIndexedRights ..) => .ok ([1], 1)
  | .ds (.createBlock ..) => .ok [1]
  | .ds (.createBlockWithId ..) => .ok ()
  | .ds (.readBlock _) => .ok ([1], [1])
  | .ds (.updateBlock ..) => .ok ()
  | .ds (.deleteBlock ..) => .ok ()
  | .getPubKeyById _ => .ok [1]
  | .themis .rand => none
  | .themis (.encryptSeal ..) => none
  | .themis (.decryptSeal ..) => none
  | .themis (.wrap ..) => none
  | .themis (.unwrapSize ..) => none
  | .themis (.unwrap ..) => none
  | .themis (.hmac ..) => none

section Granting

variable {ids : ℕ → Reply (Bytes × UInt32)} {bl : Block} {b : Bytes}

theorem run_userLoad_granting {u : Bytes} (hu : u ≠ []) (s : ℕ × ℕ) :
    (midHermesLlUserLoad u).run (answering ids granting) s =
      (.ok (some ⟨u, [1], none, hu, List.cons_ne_nil 1 []⟩), (s.1, s.2 + 1)) := by
  have hcreate : midHermesLlUserCreate u [1] = some ⟨u, [1], none, hu, List.cons_ne_nil 1 []⟩ :=
    dif_neg (by simp [hu])
  simp [midHermesLlUserLoad, hermesCredentialStoreGetPublicKey, hu, answering, granting, hcreate]

theorem run_userLoadC_granting {u : Bytes} (hu : u ≠ []) (s : ℕ × ℕ) :
    (midHermesLlUserLoadC u).run (answering ids granting) s =
      (.ok (some ⟨u, [1], none, hu, List.cons_ne_nil 1 []⟩), (s.1, s.2 + 1)) := by
  rw [midHermesLlUserLoadC, if_neg hu, run_userLoad_granting hu]

variable (ids) in
theorem run_tokenLoadC_granting {u : Bytes} (hu : u ≠ []) (hb : b ≠ []) (isUpdate : Bool)
    (s : ℕ × ℕ) : ∃ token n, (midHermesLlTokenLoadC u b isUpdate).run (answering ids granting) s =
      (.ok (some token), (s.1, n)) := by
  have hget : (hermesKeyStoreGetToken isUpdate u b).run (answering ids granting) s =
      (.ok (.ok ([1], [1])), (s.1, s.2 + 1)) := by
    cases isUpdate <;> simp [hermesKeyStoreGetToken, hu, hb, answering, granting]
  have hone : ([1] : Bytes) ≠ [] := List.cons_ne_nil 1 []
  rw [midHermesLlTokenLoadC, if_neg (by tauto), Prog.run_bind_of_ok hget]
  dsimp only
  rw [Prog.run_bind_of_ok (run_userLoadC_granting hu _)]
  dsimp only
  rw [Prog.run_bind_of_ok (run_userLoad_granting hone _)]
  exact ⟨_, _, rfl⟩

variable (ids bl) in
/-- A user is taken into the list, or passed over. -/
theorem run_node_granting {u : Bytes} (hu : u ≠ []) (hb : b ≠ []) (rights : List RightsListNode)
    (s : ℕ × ℕ) : ∃ rights' n,
      (midHermesLlBlockAccessRightsNode bl b u rights).run (answering ids granting) s =
        (.ok (some rights'), (s.1, n)) := by
  rw [midHermesLlBlockAccessRightsNode, Prog.run_bind_of_ok (run_userLoadC_granting hu s)]
  split_ifs
  · exact ⟨rights, _, rfl⟩
  · obtain ⟨rtoken, n, hr⟩ := run_tokenLoadC_granting ids hu hb false (s.1, s.2 + 1)
    obtain ⟨wtoken, m, hw⟩ := run_tokenLoadC_granting ids hu hb true (s.1, n)
    rw [midHermesLlRtokenLoadC, Prog.run_bind_of_ok hr, midHermesLlWtokenLoadC,
      Prog.run_bind_of_ok hw]
    exact ⟨_, _, rfl⟩

/-- **The loop goes on** as long as there is a user for every index. -/
theorem run_loop_granting (hb : b ≠ []) (hids : ∀ n, ∃ u mask, u ≠ [] ∧ ids n = .ok (u, mask))
    (fuel : ℕ) {i : KeyStoreIterator} (hi : i.currentUserId ≠ []) (rights : List RightsListNode)
    (s : ℕ × ℕ) :
    ((midHermesLlBlockAccessRightsLoop bl b fuel i rights).run (answering ids granting) s).1 =
      .error .outOfFuel := by
  induction fuel generalizing i rights s with
  | zero => rfl
  | succ fuel ih =>
    obtain ⟨rights', n, hnode⟩ := run_node_granting ids bl hi hb rights s
    obtain ⟨u, mask, hu, hnext⟩ := hids s.1
    rw [midHermesLlBlockAccessRightsLoop, Prog.run_bind_of_ok hnode]
    simp only [hermesKeyStoreIteratorNext, Prog.req_bind, Prog.run_req, answering, hnext,
      Prog.ret_bind]
    exact ih hu _ _

end Granting

/-! ### Which answers let it return -/

/-- **The call returns**: with enough fuel there is a result, `NULL` or a list, and no
assertion fails. -/
def Returns (ids : ℕ → Reply (Bytes × UInt32)) (other : ℕ → (r : Req) → r.Answer) (bl : Block) :
    Prop :=
  (∃ n, ∀ fuel, n ≤ fuel → ∃ r,
      ((midHermesLlBlockAccessRights fuel bl).run (answering ids other) (0, 0)).1 = .ok r) ∧
    ∀ fuel, ((midHermesLlBlockAccessRights fuel bl).run (answering ids other) (0, 0)).1 ≠
      .error .assertion

section Returns

variable {ids : ℕ → Reply (Bytes × UInt32)} {other : ℕ → (r : Req) → r.Answer} {bl : Block}
  {b : Bytes}

/-- The first answer decides whether there is a loop. -/
theorem run_accessRights (hid : bl.id = some b) (hb : b ≠ []) {mac : Bytes}
    (hmac : bl.mac = some mac) (fuel : ℕ) :
    (midHermesLlBlockAccessRights fuel bl).run (answering ids other) (0, 0) =
      match ids 0 with
      | .error _ => (.error .assertion, (1, 1))
      | .ok (u, mask) => (midHermesLlBlockAccessRightsLoop bl b fuel ⟨b, u, mask, 0⟩ []).run
          (answering ids other) (1, 1) := by
  simp only [midHermesLlBlockAccessRights, hid, hmac, hermesKeyStoreIteratorCreate, if_neg hb,
    Prog.req_bind, Prog.run_req, answering]
  cases ids 0 <;> rfl

/-- Without a mac there is nothing to enumerate. -/
theorem returns_of_no_mac (hmac : bl.mac = none) : Returns ids other bl := by
  have hrun : ∀ fuel, (midHermesLlBlockAccessRights fuel bl).run (answering ids other) (0, 0) =
      (.ok none, (0, 0)) := by
    intro fuel
    rw [midHermesLlBlockAccessRights, hmac]
    cases bl.id <;> rfl
  refine ⟨⟨0, fun fuel _ => ⟨none, by rw [hrun]⟩⟩, fun fuel => ?_⟩
  rw [hrun]
  intro h
  cases h

theorem returns_of_refusal (hid : bl.id = some b) (hb : b ≠ []) {x : Bytes × UInt32}
    (hfirst : ids 0 = .ok x) {n : ℕ} {e : Failure} (hn : ids n = .error e) :
    Returns ids other bl := by
  cases hmac : bl.mac with
  | none => exact returns_of_no_mac hmac
  | some mac =>
    have hpos : n ≠ 0 := by
      rintro rfl
      rw [hfirst] at hn
      cases hn
    refine ⟨⟨n, fun fuel hfuel => ?_⟩, fun fuel => ?_⟩
    · rw [run_accessRights hid hb hmac, hfirst]
      exact run_loop_ok (n := n - 1) ⟨e, by rw [← hn]; congr 1; omega⟩ (by omega) _ _
    · rw [run_accessRights hid hb hmac, hfirst]
      exact run_loop_ne_assertion fuel _ _ _

/-- **When every answer lets the call return.** For a block object with an id, and users for
the indices that are not refused: it has no mac, or the index `0` is not refused and some index
is. -/
theorem accessRights_returns_iff (hid : bl.id = some b) (hb : b ≠ [])
    (hids : ∀ n u mask, ids n = .ok (u, mask) → u ≠ []) :
    (∀ other, Returns ids other bl) ↔
      bl.mac = none ∨ (∃ x, ids 0 = .ok x) ∧ ∃ n e, ids n = .error e := by
  constructor
  · intro h
    cases hmac : bl.mac with
    | none => exact Or.inl rfl
    | some mac =>
      obtain ⟨⟨n, hreturns⟩, hsafe⟩ := h granting
      refine Or.inr ?_
      cases hfirst : ids 0 with
      | error e =>
        -- the iterator could not be created
        have hstop := hsafe 0
        rw [run_accessRights hid hb hmac, hfirst] at hstop
        exact absurd rfl hstop
      | ok x =>
        refine ⟨⟨x, rfl⟩, ?_⟩
        by_contra hnone
        have hall : ∀ n, ∃ u mask, u ≠ [] ∧ ids n = .ok (u, mask) := by
          intro n
          cases hn : ids n with
          | error e => exact absurd ⟨n, e, hn⟩ hnone
          | ok y => exact ⟨y.1, y.2, hids n y.1 y.2 hn, rfl⟩
        obtain ⟨r, hr⟩ := hreturns n le_rfl
        rw [run_accessRights hid hb hmac, hfirst] at hr
        dsimp only at hr
        rw [run_loop_granting hb hall n (hids 0 x.1 x.2 hfirst)] at hr
        cases hr
  · rintro (hmac | ⟨⟨x, hfirst⟩, n, e, hn⟩) other
    · exact returns_of_no_mac hmac
    · exact returns_of_refusal hid hb hfirst hn

end Returns

/-- A block object as it is after it was loaded, without its tokens. -/
def loadedBlock : Block where
  user := ⟨[1], [2], none, by decide, by decide⟩
  id := some [7]
  block := some [3]
  data := some [4]
  metadata := some [5]
  oldMac := none
  mac := some [6]
  rtoken := none
  wtoken := none

theorem accessRights_returns_one :
    (∀ other, Returns (fun n => if n = 0 then .ok ([9], 1) else .error .fail) other loadedBlock) ↔
      loadedBlock.mac = none ∨
        (∃ x, (if (0 : ℕ) = 0 then .ok ([9], 1) else .error .fail : Reply (Bytes × UInt32)) =
          .ok x) ∧
          ∃ n e, (if n = 0 then .ok ([9], 1) else .error .fail : Reply (Bytes × UInt32)) =
            .error e := by
  refine accessRights_returns_iff (b := [7]) rfl (by decide) fun n u mask h => ?_
  split_ifs at h
  cases h
  decide

/-- A key store that cannot enumerate its users. -/
theorem accessRights_aborts : ∃ fuel, ((midHermesLlBlockAccessRights fuel loadedBlock).run
    (answering (fun _ => .error .fail) granting) (0, 0)).1 = .error .assertion :=
  ⟨0, rfl⟩

end Hermes
