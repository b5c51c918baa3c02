import Hermes.Linked.Chain
import Hermes.MidHermesLl.Token

/-!
# Rights lists in memory

The doubly linked list of `mid_hermes_ll_rights_list.c`, which the rest of the model has as the
list of its nodes (`Hermes.RightsListNode`). Here the nodes are cells of a memory, and every
assignment of the source is a write to one; reading or writing where there is no node has no
result.

The operations keep the representation of a sequence of nodes (`Hermes.HoldsNodes`), with one
exception: `rpop` of the only node leaves `head` as it is. The list is then empty by its `len`,
and an iterator still gives the node that has been popped. So the list behaves as a sequence
in all runs in which the only node is never popped, and in no others
(`Hermes.rights_list_behaves_iff`).
-/

namespace Hermes

open Linked

/-- The memory the nodes are in. -/
abbrev RightsHeap := Heap ℕ RightsListNode

/-- `mid_hermes_ll_rights_list_t` -/
structure RightsList where
  /-- `head` -/
  head : Option ℕ
  /-- `tail` -/
  tail : Option ℕ
  /-- `len` -/
  len : ℕ
  deriving DecidableEq

/-- A list and the memory its nodes are in. -/
structure RightsState where
  /-- The memory. -/
  heap : RightsHeap
  /-- The list. -/
  list : RightsList

/-- `mid_hermes_ll_rights_list_create` -/
def midHermesLlRightsListCreate (heap : RightsHeap) : RightsState := ⟨heap, ⟨none, none, 0⟩⟩

/-- `mid_hermes_ll_rights_list_rpush` -/
def midHermesLlRightsListRpush (s : RightsState) (rightsNode : ℕ) : Option RightsState :=
  if s.list.len ≠ 0 then do
    let heap ← s.heap.setPrev rightsNode s.list.tail
    let heap ← heap.setNext rightsNode none
    let tail ← s.list.tail
    let heap ← heap.setNext tail (some rightsNode)
    return ⟨heap, { s.list with tail := some rightsNode, len := s.list.len + 1 }⟩
  else do
    let heap ← s.heap.setNext rightsNode none
    let heap ← heap.setPrev rightsNode none
    return ⟨heap, ⟨some rightsNode, some rightsNode, s.list.len + 1⟩⟩

/-- `mid_hermes_ll_rights_list_rpop`: the node that is popped, or `NULL`. Only `tail` is reset
when it was the only one. -/
def midHermesLlRightsListRpop (s : RightsState) : Option (Option ℕ × RightsState) :=
  if s.list.len = 0 then some (none, s)
  else do
    let node ← s.list.tail
    if s.list.len - 1 ≠ 0 then
      let tail ← (← s.heap node).prev
      let heap ← s.heap.setNext tail none
      let heap ← heap.setPrev node none
      let heap ← heap.setNext node none
      return (some node, ⟨heap, { s.list with tail := some tail, len := s.list.len - 1 }⟩)
    else
      let heap ← s.heap.setPrev node none
      let heap ← heap.setNext node none
      return (some node, ⟨heap, { s.list with tail := none, len := s.list.len - 1 }⟩)

/-- `mid_hermes_ll_rights_list_remove`: the node is destroyed. -/
def midHermesLlRightsListRemove (s : RightsState) (rightsNode : ℕ) : Option RightsState := do
  let node ← s.heap rightsNode
  let s ← (match node.prev with
    | some prev => do return { s with heap := ← s.heap.setNext prev node.next }
    | none => some { s with list.head := node.next })
  let node ← s.heap rightsNode
  let s ← (match node.next with
    | some next => do return { s with heap := ← s.heap.setPrev next node.prev }
    | none => some { s with list.tail := node.prev })
  return ⟨s.heap.free rightsNode, { s.list with len := s.list.len - 1 }⟩

/-! ### Iterators -/

/-- `mid_hermes_ll_rights_list_iterator_create`: an iterator is its `next`. -/
def midHermesLlRightsListIteratorCreate (s : RightsState) : Option ℕ := s.list.head

/-- `mid_hermes_ll_rights_list_iterator_next`: what it returns, and the iterator behind it. -/
def midHermesLlRightsListIteratorNext (heap : RightsHeap) :
    Option ℕ → Option (Option ℕ × Option ℕ)
  | none => some (none, none)
  | some curr => do
    let node ← heap curr
    return (some curr, node.next)

/-- The loop of `mid_hermes_ll_rights_list_find`, which goes on until the iterator returns
`NULL`; `fuel` bounds its iterations. -/
def midHermesLlRightsListFindLoop (heap : RightsHeap) (userId : Bytes) :
    ℕ → Option ℕ → Option (Option ℕ)
  | 0, _ => none
  | fuel + 1, iterator => do
    match ← midHermesLlRightsListIteratorNext heap iterator with
    | (none, _) => return none
    | (some node, iterator) =>
      if (← heap node).val.user.id = userId then return some node
      else midHermesLlRightsListFindLoop heap userId fuel iterator

/-- `mid_hermes_ll_rights_list_find` -/
def midHermesLlRightsListFind (fuel : ℕ) (s : RightsState) (userId : Bytes) : Option (Option ℕ) :=
  if userId = [] then some none
  else
    midHermesLlRightsListFindLoop s.heap userId fuel (midHermesLlRightsListIteratorCreate s)

/-- What an iterator returns until it returns `NULL`. -/
def iterated (heap : RightsHeap) : ℕ → Option ℕ → Option (List ℕ)
  | 0, _ => none
  | fuel + 1, iterator => do
    match ← midHermesLlRightsListIteratorNext heap iterator with
    | (none, _) => return []
    | (some node, iterator) => return node :: (← iterated heap fuel iterator)

theorem iterated_eq_walk (heap : RightsHeap) (fuel : ℕ) (iterator : Option ℕ) :
    iterated heap fuel iterator = walk Cell.next heap fuel iterator := by
  induction fuel generalizing iterator with
  | zero => rfl
  | succ fuel ih =>
    cases iterator with
    | none => rfl
    | some curr =>
      cases hcell : heap curr with
      | none => simp [iterated, walk, midHermesLlRightsListIteratorNext, hcell]
      | some node =>
        have hnext : midHermesLlRightsListIteratorNext heap (some curr) =
            some (some curr, node.next) := by
          simp [midHermesLlRightsListIteratorNext, hcell]
        simp only [iterated, walk, hnext, hcell, Option.bind_eq_bind, Option.bind_some, ih]
        cases walk Cell.next heap fuel node.next <;> rfl

/-- Finding a user among the nodes of an iterator. -/
theorem findLoop_eq {heap : RightsHeap} {p : Option ℕ} {ns : List ℕ} (h : Seg heap p ns none)
    (userId : Bytes) {fuel : ℕ} (hfuel : ns.length < fuel) :
    midHermesLlRightsListFindLoop heap userId fuel ns.head? =
      some (ns.find? fun n => (heap n).any fun c => c.val.user.id = userId) := by
  induction ns generalizing p fuel with
  | nil =>
    obtain ⟨fuel, rfl⟩ := Nat.exists_eq_succ_of_ne_zero (Nat.ne_zero_of_lt hfuel)
    rfl
  | cons n ns ih =>
    obtain ⟨fuel, rfl⟩ := Nat.exists_eq_succ_of_ne_zero (Nat.ne_zero_of_lt hfuel)
    obtain ⟨⟨v, hn⟩, hns⟩ := h
    have hnext : midHermesLlRightsListIteratorNext heap (some n) = some (some n, ns.head?) := by
      simp [midHermesLlRightsListIteratorNext, hn]
    simp only [List.head?_cons, midHermesLlRightsListFindLoop, hnext, hn, Option.bind_eq_bind,
      Option.bind_some, ih hns (Nat.lt_of_succ_lt_succ hfuel)]
    split_ifs with hid
    · rw [List.find?_cons_of_pos (by simpa [hn] using hid)]
      rfl
    · rw [List.find?_cons_of_neg (by simpa [hn] using hid)]

/-! ### Sequences of nodes -/

/-- **The representation**: the list is the sequence `ns` of nodes. -/
structure HoldsNodes (s : RightsState) (ns : List ℕ) : Prop where
  nodup : ns.Nodup
  seg : Seg s.heap none ns none
  head_eq : s.list.head = ns.head?
  tail_eq : s.list.tail = ns.getLast?
  len_eq : s.list.len = ns.length

theorem holdsNodes_create (heap : RightsHeap) :
    HoldsNodes (midHermesLlRightsListCreate heap) [] :=
  ⟨List.nodup_nil, trivial, rfl, rfl, rfl⟩

variable {s s' : RightsState} {ns : List ℕ} {n : ℕ}

/-- What the assignments of `rpush` amount to. -/
theorem rpush_of_ne_zero {t : ℕ} {c ct : Cell ℕ RightsListNode} (hlen : s.list.len ≠ 0)
    (ht : s.list.tail = some t) (hne : t ≠ n) (hc : s.heap n = some c) (hct : s.heap t = some ct) :
    midHermesLlRightsListRpush s n =
      some ⟨Function.update (Function.update s.heap n (some ⟨some t, none, c.val⟩)) t
        (some { ct with next := some n }),
        { s.list with tail := some n, len := s.list.len + 1 }⟩ := by
  rw [midHermesLlRightsListRpush, if_pos hlen]
  simp [Heap.setPrev, Heap.setNext, Heap.modify, hc, ht, hct, hne]

theorem rpush_of_zero {c : Cell ℕ RightsListNode} (hlen : s.list.len = 0) (hc : s.heap n = some c) :
    midHermesLlRightsListRpush s n =
      some ⟨Function.update s.heap n (some ⟨none, none, c.val⟩), ⟨some n, some n, 1⟩⟩ := by
  rw [midHermesLlRightsListRpush, if_neg (not_not.mpr hlen)]
  simp [Heap.setPrev, Heap.setNext, Heap.modify, hc, hlen]

/-- The nodes there are, and what they say of a user. -/
def vals (heap : RightsHeap) (n : ℕ) : Option RightsListNode := (heap n).map Cell.val

theorem vals_eq {heap : RightsHeap} {c : Cell ℕ RightsListNode} (h : heap n = some c) :
    vals heap n = some c.val := by
  rw [vals, h, Option.map_some]

/-- Writing to the pointers of a node changes no value. -/
theorem vals_update {heap : RightsHeap} {m : ℕ} {v : RightsListNode} (h : vals heap m = some v)
    (p q : Option ℕ) : vals (Function.update heap m (some ⟨p, q, v⟩)) = vals heap := by
  funext k
  rcases eq_or_ne k m with rfl | hne
  · rw [h, vals, Function.update_self, Option.map_some]
  · rw [vals, vals, Function.update_of_ne hne]

/-- **A node is pushed.** -/
theorem HoldsNodes.rpush (h : HoldsNodes s ns) (hn : n ∉ ns) {c : Cell ℕ RightsListNode}
    (hc : s.heap n = some c) :
    ∃ s', midHermesLlRightsListRpush s n = some s' ∧ HoldsNodes s' (ns ++ [n]) ∧
      vals s'.heap = vals s.heap := by
  have hnodup : (ns ++ [n]).Nodup := List.nodup_append.mpr
    ⟨h.nodup, List.nodup_singleton n, fun a ha b hb => by
      rw [List.mem_singleton.mp hb]
      rintro rfl
      exact hn ha⟩
  rcases List.eq_nil_or_concat' ns with rfl | ⟨xs, t, rfl⟩
  · -- the first node is head and tail
    refine ⟨_, rpush_of_zero h.len_eq hc, ⟨hnodup, ?_, rfl, rfl, rfl⟩,
      vals_update (vals_eq hc) none none⟩
    exact seg_singleton.mpr ⟨c.val, Function.update_self ..⟩
  · -- two cells are written: the one of the last node, and the new one
    have ht : s.list.tail = some t := by rw [h.tail_eq, List.getLast?_concat]
    have hlen : s.list.len ≠ 0 := by
      rw [h.len_eq, List.length_append]
      exact Nat.succ_ne_zero _
    obtain ⟨ct, hct⟩ := h.seg.exists_cell (n := t) (by simp)
    have hne : t ≠ n := by
      rintro rfl
      exact hn (by simp)
    refine ⟨_, rpush_of_ne_zero hlen ht hne hc hct, ⟨hnodup, ?_, ?_, ?_, ?_⟩, ?_⟩
    · refine h.seg.link (v := c.val) ?_ (fun t' c' ht' hc' => ?_) fun m hm => ?_
      · dsimp only
        rw [List.getLast?_concat, Function.update_of_ne hne.symm, Function.update_self]
      · rw [List.getLast?_concat] at ht'
        cases ht'
        cases hct.symm.trans hc'
        exact Function.update_self ..
      · rw [List.dropLast_concat] at hm
        have hmt : m ≠ t := (List.nodup_append.mp h.nodup).2.2 m hm t (List.mem_singleton_self t)
        have hmn : m ≠ n := by
          rintro rfl
          exact hn (List.mem_append_left _ hm)
        dsimp only
        rw [Function.update_of_ne hmt, Function.update_of_ne hmn]
    · have hhead : (xs ++ [t] ++ [n]).head? = (xs ++ [t]).head? := by cases xs <;> rfl
      rw [hhead]
      exact h.head_eq
    · exact List.getLast?_concat.symm
    · rw [List.length_append, ← h.len_eq]
      rfl
    · have hvals := vals_update (vals_eq hc) (some t) none
      dsimp only
      rw [vals_update (by rw [hvals, vals_eq hct]), hvals]

theorem rpop_of_zero (hlen : s.list.len = 0) : midHermesLlRightsListRpop s = some (none, s) :=
  if_pos hlen

/-- **The only node** is popped: `head` still points to it. -/
theorem rpop_of_one {c : Cell ℕ RightsListNode} (hlen : s.list.len = 1)
    (htail : s.list.tail = some n) (hc : s.heap n = some c) :
    midHermesLlRightsListRpop s =
      some (some n, ⟨Function.update s.heap n (some ⟨none, none, c.val⟩),
        ⟨s.list.head, none, 0⟩⟩) := by
  rw [midHermesLlRightsListRpop, if_neg (by omega)]
  simp [Heap.setPrev, Heap.setNext, Heap.modify, hc, hlen, htail]

theorem rpop_of_two {t : ℕ} {q : Option ℕ} {v : RightsListNode} {ct : Cell ℕ RightsListNode}
    (hlen : 2 ≤ s.list.len) (htail : s.list.tail = some n) (hne : t ≠ n)
    (hn : s.heap n = some ⟨some t, q, v⟩) (hct : s.heap t = some ct) :
    midHermesLlRightsListRpop s =
      some (some n, ⟨Function.update (Function.update s.heap t (some { ct with next := none })) n
        (some ⟨none, none, v⟩), ⟨s.list.head, some t, s.list.len - 1⟩⟩) := by
  have hmore : s.list.len - 1 ≠ 0 := by omega
  rw [midHermesLlRightsListRpop, if_neg (by omega)]
  simp [Heap.setPrev, Heap.setNext, Heap.modify, hn, hct, htail, hne.symm, hmore]

/-- **The last node is popped**, if there is another one or none at all. -/
theorem HoldsNodes.rpop (h : HoldsNodes s ns) (hone : ns.length ≠ 1) :
    ∃ s', midHermesLlRightsListRpop s = some (ns.getLast?, s') ∧ HoldsNodes s' ns.dropLast ∧
      vals s'.heap = vals s.heap := by
  rcases List.eq_nil_or_concat' ns with rfl | ⟨xs, n, rfl⟩
  · exact ⟨s, rpop_of_zero h.len_eq, h, rfl⟩
  -- a list of one node is excluded: there the code leaves `head` at what it pops
  rcases List.eq_nil_or_concat' xs with rfl | ⟨xs, t, rfl⟩
  · exact absurd rfl hone
  have htail : s.list.tail = some n := by rw [h.tail_eq, List.getLast?_concat]
  have hlen : s.list.len = xs.length + 1 + 1 := by
    rw [h.len_eq, List.length_append, List.length_append]
    rfl
  have hseg : Seg s.heap none ((xs ++ [t]) ++ n :: []) none := h.seg
  obtain ⟨v, hv⟩ := hseg.cell
  rw [List.getLast?_concat, Option.some_or] at hv
  obtain ⟨ct, hct⟩ := h.seg.exists_cell (n := t) (by simp)
  obtain ⟨hnodup, -, hdisj⟩ := List.nodup_append.mp h.nodup
  have hne : ∀ m ∈ xs ++ [t], m ≠ n := fun m hm => hdisj m hm n (List.mem_singleton_self n)
  have htn : t ≠ n := hne t (by simp)
  rw [List.getLast?_concat, List.dropLast_concat]
  refine ⟨_, rpop_of_two (by omega) htail htn hv hct, ⟨hnodup, ?_, ?_, ?_, ?_⟩, ?_⟩
  · rw [← List.append_nil (xs ++ [t])]
    refine hseg.unlink (fun t' c' ht' hc' => ?_) (fun t' c' ht' => by cases ht')
      (fun m hm => ?_) fun m hm => by cases hm
    · rw [List.getLast?_concat] at ht'
      cases ht'
      cases hct.symm.trans hc'
      dsimp only
      rw [Function.update_of_ne htn, Function.update_self]
      rfl
    · rw [List.dropLast_concat] at hm
      have hmt : m ≠ t := (List.nodup_append.mp hnodup).2.2 m hm t (List.mem_singleton_self t)
      dsimp only
      rw [Function.update_of_ne (hne m (List.mem_append_left _ hm)), Function.update_of_ne hmt]
  · have hhead : (xs ++ [t] ++ [n]).head? = (xs ++ [t]).head? := by cases xs <;> rfl
    rw [← hhead]
    exact h.head_eq
  · exact List.getLast?_concat.symm
  · rw [List.length_append]
    dsimp only [List.length_singleton]
    omega
  · have hvals := vals_update (vals_eq hct) ct.prev none
    dsimp only
    rw [vals_update (by rw [hvals, vals_eq hv]), hvals]

/-- The memory with a cell unlinked from `p` and `q` and destroyed. -/
def unlinked (heap : RightsHeap) (n : ℕ) (p q : Option ℕ) : RightsHeap := fun m =>
  if m = n then none
  else (heap m).map fun c =>
    ⟨if q = some m then p else c.prev, if p = some m then q else c.next, c.val⟩

/-- What the assignments of `remove` amount to. -/
theorem remove_eq {p q : Option ℕ} {v : RightsListNode} (hn : s.heap n = some ⟨p, q, v⟩)
    (hp : ∀ k, p = some k → k ≠ n ∧ ∃ c, s.heap k = some c)
    (hq : ∀ k, q = some k → k ≠ n ∧ ∃ c, s.heap k = some c) (hpq : p = none ∨ p ≠ q) :
    midHermesLlRightsListRemove s n = some ⟨unlinked s.heap n p q,
      ⟨if p = none then q else s.list.head, if q = none then p else s.list.tail,
        s.list.len - 1⟩⟩ := by
  -- in each of the four cases the heap before the node is freed is compared outside the node
  have hfree : ∀ heap : RightsHeap, (∀ m, m ≠ n → heap m = unlinked s.heap n p q m) →
      heap.free n = unlinked s.heap n p q := by
    intro heap hm
    funext m
    rcases eq_or_ne m n with rfl | hne
    · rw [Heap.free, Function.update_self, unlinked, if_pos rfl]
    · rw [Heap.free, Function.update_of_ne hne, hm m hne]
  cases p with
  | none =>
    cases q with
    | none =>
      rw [← hfree s.heap fun m hm => by simp [unlinked, hm]]
      simp [midHermesLlRightsListRemove, hn]
    | some b =>
      obtain ⟨hbn, cb, hcb⟩ := hq b rfl
      rw [← hfree (Function.update s.heap b (some { cb with prev := none })) fun m hm => by
        rcases eq_or_ne m b with rfl | hmb
        · simp [unlinked, hm, hcb]
        · simp [unlinked, hm, hmb, hmb.symm]]
      simp [midHermesLlRightsListRemove, hn, Heap.setPrev, Heap.modify, hcb]
  | some a =>
    obtain ⟨han, ca, hca⟩ := hp a rfl
    cases q with
    | none =>
      rw [← hfree (Function.update s.heap a (some { ca with next := none })) fun m hm => by
        rcases eq_or_ne m a with rfl | hma
        · simp [unlinked, hm, hca]
        · simp [unlinked, hm, hma, hma.symm]]
      simp [midHermesLlRightsListRemove, hn, Heap.setNext, Heap.modify, hca, han.symm]
    | some b =>
      obtain ⟨hbn, cb, hcb⟩ := hq b rfl
      have hab : a ≠ b := by
        rintro rfl
        exact hpq.elim (fun h => by cases h) fun h => h rfl
      rw [← hfree (Function.update (Function.update s.heap a (some { ca with next := some b })) b
        (some { cb with prev := some a })) fun m hm => by
          rcases eq_or_ne m b with rfl | hmb
          · simp [unlinked, hm, hcb, hab]
          · rcases eq_or_ne m a with rfl | hma
            · simp [unlinked, hm, hmb, hca, hab.symm]
            · simp [unlinked, hm, hmb, hma, hmb.symm, hma.symm]]
      simp [midHermesLlRightsListRemove, hn, Heap.setNext, Heap.setPrev, Heap.modify, hca, hcb,
        han.symm, hab.symm]

theorem unlinked_of_ne {heap : RightsHeap} {m : ℕ} {p q : Option ℕ} {c : Cell ℕ RightsListNode}
    (hm : m ≠ n) (hc : heap m = some c) : unlinked heap n p q m =
      some ⟨if q = some m then p else c.prev, if p = some m then q else c.next, c.val⟩ := by
  rw [unlinked, if_neg hm, hc, Option.map_some]

theorem vals_unlinked {heap : RightsHeap} {m : ℕ} (hm : m ≠ n) (p q : Option ℕ) :
    vals (unlinked heap n p q) m = vals heap m := by
  rw [vals, unlinked, if_neg hm, vals, Option.map_map]
  rfl

theorem getLast?_ne_of_mem_dropLast {xs : List ℕ} (h : xs.Nodup) {m : ℕ} (hm : m ∈ xs.dropLast) :
    xs.getLast? ≠ some m := by
  rcases List.eq_nil_or_concat' xs with rfl | ⟨zs, t, rfl⟩
  · cases hm
  · rw [List.dropLast_concat] at hm
    rw [List.getLast?_concat]
    rintro heq
    exact (List.nodup_append.mp h).2.2 m hm t (List.mem_singleton_self t) (Option.some.inj heq).symm

theorem head?_ne_of_mem_tail {ys : List ℕ} (h : ys.Nodup) {m : ℕ} (hm : m ∈ ys.tail) :
    ys.head? ≠ some m := by
  cases ys with
  | nil => cases hm
  | cons y ys =>
    rintro heq
    cases heq
    exact (List.nodup_cons.mp h).1 hm

/-- **A node is removed.** -/
theorem HoldsNodes.remove (h : HoldsNodes s ns) (hn : n ∈ ns) :
    ∃ s', midHermesLlRightsListRemove s n = some s' ∧ HoldsNodes s' (ns.erase n) ∧
      ∀ m, m ≠ n → vals s'.heap m = vals s.heap m := by
  obtain ⟨xs, ys, rfl⟩ := List.append_of_mem hn
  obtain ⟨hxs, hnys, hdisj⟩ := List.nodup_append.mp h.nodup
  obtain ⟨hny, hys⟩ := List.nodup_cons.mp hnys
  have hnx : n ∉ xs := fun hmem => hdisj n hmem n List.mem_cons_self rfl
  have hxy : ∀ m ∈ xs, m ∉ ys := fun m hx hy => hdisj m hx m (List.mem_cons_of_mem n hy) rfl
  obtain ⟨v, hv⟩ := h.seg.cell
  rw [Option.or_none, Option.or_none] at hv
  have hcell : ∀ m ∈ xs ++ n :: ys, ∃ c, s.heap m = some c := fun m => h.seg.exists_cell
  have hlast : ∀ k, xs.getLast? = some k → k ∈ xs := fun k => List.mem_of_getLast?
  have hfirst : ∀ k, ys.head? = some k → k ∈ ys := fun k => List.mem_of_head?
  have hrun := remove_eq hv (fun k hk => ⟨fun hkn => hnx (hkn ▸ hlast k hk),
      hcell k (List.mem_append_left _ (hlast k hk))⟩)
    (fun k hk => ⟨fun hkn => hny (hkn ▸ hfirst k hk),
      hcell k (List.mem_append_right _ (List.mem_cons_of_mem n (hfirst k hk)))⟩) (by
    cases hp : xs.getLast? with
    | none => exact Or.inl rfl
    | some k => exact Or.inr fun hq => hxy k (hlast k hp) (hfirst k hq.symm))
  have hsplit : (xs ++ n :: ys).erase n = xs ++ ys := by
    rw [List.erase_append_right _ hnx, List.erase_cons_head]
  rw [hsplit]
  -- no node is in both parts, so every other cell is written at most once
  refine ⟨_, hrun, ⟨?_, ?_, ?_, ?_, ?_⟩, fun m hm => vals_unlinked hm _ _⟩
  · exact List.nodup_append.mpr ⟨hxs, hys, fun a ha b hb hab => hxy a ha (hab ▸ hb)⟩
  · refine h.seg.unlink (fun t c ht hc => ?_) (fun t c ht hc => ?_) (fun m hm => ?_) fun m hm => ?_
    · have hne : t ≠ n := fun htn => hnx (htn ▸ hlast t ht)
      have hq : ys.head? ≠ some t := fun hq => hxy t (hlast t ht) (hfirst t hq)
      dsimp only
      rw [unlinked_of_ne hne hc, if_neg hq, if_pos ht]
    · have hne : t ≠ n := fun htn => hny (htn ▸ hfirst t ht)
      have hp : xs.getLast? ≠ some t := fun hp => hxy t (hlast t hp) (hfirst t ht)
      dsimp only
      rw [unlinked_of_ne hne hc, if_pos ht, if_neg hp]
    · have hx : m ∈ xs := List.mem_of_mem_dropLast hm
      obtain ⟨c, hc⟩ := hcell m (List.mem_append_left _ hx)
      have hne : m ≠ n := by
        rintro rfl
        exact hnx hx
      dsimp only
      rw [unlinked_of_ne hne hc, hc,
        if_neg fun hq => hxy m hx (hfirst m hq), if_neg (getLast?_ne_of_mem_dropLast hxs hm)]
    · have hy : m ∈ ys := List.mem_of_mem_tail hm
      obtain ⟨c, hc⟩ := hcell m (List.mem_append_right _ (List.mem_cons_of_mem n hy))
      have hne : m ≠ n := by
        rintro rfl
        exact hny hy
      dsimp only
      rw [unlinked_of_ne hne hc, hc,
        if_neg (head?_ne_of_mem_tail hys hm), if_neg fun hp => hxy m (hlast m hp) hy]
  · rw [h.head_eq]
    cases xs with
    | nil => rfl
    | cons x xs => simp
  · rw [h.tail_eq]
    cases ys with
    | nil => simp
    | cons y ys => simp
  · rw [h.len_eq, List.length_append, List.length_append, List.length_cons]
    dsimp only
    omega

/-! ### Runs -/

/-- The operations on a list. -/
inductive RightsOp where
  | rpush (node : ℕ) : RightsOp
  | rpop : RightsOp
  | remove (node : ℕ) : RightsOp
  deriving DecidableEq

/-- What an operation does to the list, without what it returns. -/
def RightsOp.run (s : RightsState) : RightsOp → Option RightsState
  | .rpush node => midHermesLlRightsListRpush s node
  | .rpop => (midHermesLlRightsListRpop s).map Prod.snd
  | .remove node => midHermesLlRightsListRemove s node

/-- What it is to do to the nodes pushed and not yet popped or removed. -/
def RightsOp.apply (ns : List ℕ) : RightsOp → List ℕ
  | .rpush node => ns ++ [node]
  | .rpop => ns.dropLast
  | .remove node => ns.erase node

/-- It may be called: a node that is pushed exists and is not in the list, and one that is
removed is. -/
def RightsOp.Legal (exist : Set ℕ) (ns : List ℕ) : RightsOp → Prop
  | .rpush node => node ∈ exist ∧ node ∉ ns
  | .rpop => True
  | .remove node => node ∈ ns

/-- The nodes there are afterwards. -/
def RightsOp.exist (exist : Set ℕ) : RightsOp → Set ℕ
  | .rpush _ => exist
  | .rpop => exist
  | .remove node => exist \ {node}

/-- A sequence of operations that may be called one after the other. -/
def LegalRun : Set ℕ → List ℕ → List RightsOp → Prop
  | _, _, [] => True
  | exist, ns, op :: ops => op.Legal exist ns ∧ LegalRun (op.exist exist) (op.apply ns) ops

/-- The list is the sequence of nodes, as far as its functions tell. -/
structure Behaves (s : RightsState) (ns : List ℕ) : Prop where
  /-- `len` is their number. -/
  len : s.list.len = ns.length
  /-- A fresh iterator yields them in order, and then `NULL`. -/
  forwards : ∀ fuel, ns.length < fuel →
    iterated s.heap fuel (midHermesLlRightsListIteratorCreate s) = some ns
  /-- From `tail`, by `prev`, they come in reverse order. -/
  backwards : ∀ fuel, ns.length < fuel →
    walk Cell.prev s.heap fuel s.list.tail = some ns.reverse
  /-- `rpop` returns the last one, or `NULL`. -/
  rpop : ∃ s', midHermesLlRightsListRpop s = some (ns.getLast?, s')
  /-- `find` returns the first one of a user, or `NULL`. -/
  find : ∀ userId fuel, userId ≠ [] → ns.length < fuel →
    midHermesLlRightsListFind fuel s userId =
      some (ns.find? fun n => (s.heap n).any fun c => c.val.user.id = userId)

/-- **In every state reached**: no operation goes wrong, and the list is the sequence. -/
def AlwaysBehaves : RightsState → List ℕ → List RightsOp → Prop
  | s, ns, [] => Behaves s ns
  | s, ns, op :: ops => Behaves s ns ∧ ∃ s', op.run s = some s' ∧ AlwaysBehaves s' (op.apply ns) ops

/-- The only node is popped at some point. -/
def PopsOnlyNode : List ℕ → List RightsOp → Prop
  | _, [] => False
  | ns, op :: ops => (op = .rpop ∧ ns.length = 1) ∨ PopsOnlyNode (op.apply ns) ops

/-- No `rpop` writes to `head`. -/
theorem rpop_head {r : Option ℕ} (h : midHermesLlRightsListRpop s = some (r, s')) :
    s'.list.head = s.list.head := by
  rw [midHermesLlRightsListRpop] at h
  split_ifs at h with hlen hmore
  · cases h
    rfl
  · simp only [Option.bind_eq_bind, Option.bind_eq_some_iff] at h
    obtain ⟨node, -, c, -, t, -, heap₁, -, heap₂, -, heap₃, -, hret⟩ := h
    cases hret
    rfl
  · simp only [Option.bind_eq_bind, Option.bind_eq_some_iff] at h
    obtain ⟨node, -, heap₁, -, heap₂, -, hret⟩ := h
    cases hret
    rfl

theorem HoldsNodes.rpop_ok (h : HoldsNodes s ns) :
    ∃ s', midHermesLlRightsListRpop s = some (ns.getLast?, s') := by
  by_cases hone : ns.length = 1
  · obtain ⟨n, rfl⟩ := List.length_eq_one_iff.mp hone
    obtain ⟨v, hv⟩ := seg_singleton.mp h.seg
    exact ⟨_, rpop_of_one h.len_eq h.tail_eq hv⟩
  · obtain ⟨s', hrun, -⟩ := h.rpop hone
    exact ⟨s', hrun⟩

/-- **A list that represents a sequence behaves as one.** -/
theorem HoldsNodes.behaves (h : HoldsNodes s ns) : Behaves s ns where
  len := h.len_eq
  forwards fuel hfuel := by
    rw [iterated_eq_walk, midHermesLlRightsListIteratorCreate, h.head_eq]
    exact h.seg.walk_next hfuel
  backwards fuel hfuel := by
    rw [h.tail_eq]
    exact h.seg.walk_prev hfuel
  rpop := h.rpop_ok
  find userId fuel hid hfuel := by
    rw [midHermesLlRightsListFind, if_neg hid, midHermesLlRightsListIteratorCreate, h.head_eq]
    exact findLoop_eq h.seg userId hfuel

/-- **One step**: an operation other than `rpop` of the only node keeps the representation. -/
theorem HoldsNodes.step (h : HoldsNodes s ns) {exist : Set ℕ}
    (hexist : ∀ m ∈ exist, vals s.heap m ≠ none) {op : RightsOp} (hop : op.Legal exist ns)
    (hone : ¬(op = .rpop ∧ ns.length = 1)) :
    ∃ s', op.run s = some s' ∧ HoldsNodes s' (op.apply ns) ∧
      ∀ m ∈ op.exist exist, vals s'.heap m ≠ none := by
  cases op with
  | rpush node =>
    obtain ⟨hnode, hnew⟩ := hop
    obtain ⟨c, hc⟩ : ∃ c, s.heap node = some c := by
      have hv := hexist node hnode
      rw [vals, Ne, Option.map_eq_none_iff] at hv
      exact Option.ne_none_iff_exists'.mp hv
    obtain ⟨s', hrun, hrep, hvals⟩ := h.rpush hnew hc
    exact ⟨s', hrun, hrep, fun m hm => by rw [hvals]; exact hexist m hm⟩
  | rpop =>
    obtain ⟨s', hrun, hrep, hvals⟩ := h.rpop fun hlen => hone ⟨rfl, hlen⟩
    exact ⟨s', by rw [RightsOp.run, hrun, Option.map_some], hrep,
      fun m hm => by rw [hvals]; exact hexist m hm⟩
  | remove node =>
    obtain ⟨s', hrun, hrep, hvals⟩ := h.remove hop
    refine ⟨s', hrun, hrep, fun m hm => ?_⟩
    rw [hvals m hm.2]
    exact hexist m hm.1

/-- **A run** in which the only node is never popped. -/
theorem HoldsNodes.alwaysBehaves {ops : List RightsOp} : ∀ {s : RightsState} {ns : List ℕ}
    {exist : Set ℕ}, HoldsNodes s ns → (∀ m ∈ exist, vals s.heap m ≠ none) →
      LegalRun exist ns ops → ¬PopsOnlyNode ns ops → AlwaysBehaves s ns ops := by
  induction ops with
  | nil => exact fun h _ _ _ => h.behaves
  | cons op ops ih =>
    intro s ns exist h hexist hlegal hpops
    obtain ⟨hone, hrest⟩ := not_or.mp hpops
    obtain ⟨s', hrun, hrep, hexist'⟩ := h.step hexist hlegal.1 hone
    exact ⟨h.behaves, s', hrun, ih hrep hexist' hlegal.2 hrest⟩

/-- After the only node has been popped, an iterator still finds it. -/
theorem Behaves.not_behaves_rpop (h : Behaves s [n]) {r : Option ℕ}
    (hrun : midHermesLlRightsListRpop s = some (r, s')) : ¬Behaves s' [] := by
  intro h'
  have hone := h.forwards 2 (Nat.lt_succ_self 1)
  have hnone := h'.forwards 1 (by decide)
  rw [iterated_eq_walk, midHermesLlRightsListIteratorCreate] at hone hnone
  rw [rpop_head hrun] at hnone
  cases hhead : s.list.head with
  | none =>
    rw [hhead] at hone
    cases hone
  | some m =>
    rw [hhead, walk] at hnone
    cases hcell : s'.heap m <;> rw [hcell] at hnone <;> cases hnone

theorem not_alwaysBehaves {ops : List RightsOp} : ∀ {s : RightsState} {ns : List ℕ},
    PopsOnlyNode ns ops → ¬AlwaysBehaves s ns ops := by
  induction ops with
  | nil => exact fun h => h.elim
  | cons op ops ih =>
    rintro s ns (⟨rfl, hone⟩ | hpops) ⟨hbehaves, s', hrun, hrest⟩
    · obtain ⟨n, rfl⟩ := List.length_eq_one_iff.mp hone
      obtain ⟨⟨r, s''⟩, hpop, rfl⟩ := Option.map_eq_some_iff.mp hrun
      have hempty : Behaves s'' [] := by
        cases ops with
        | nil => exact hrest
        | cons op ops => exact hrest.1
      exact hbehaves.not_behaves_rpop hpop hempty
    · exact ih hpops hrest

/-- **When the rights list behaves as a sequence**: in the runs from a fresh list in which the
only node is never popped. -/
theorem rights_list_behaves_iff (heap : RightsHeap) {ops : List RightsOp}
    (h : LegalRun {n | vals heap n ≠ none} [] ops) :
    AlwaysBehaves (midHermesLlRightsListCreate heap) [] ops ↔ ¬PopsOnlyNode [] ops :=
  ⟨fun halways hpops => not_alwaysBehaves hpops halways,
    (holdsNodes_create heap).alwaysBehaves (fun _ hm => hm) h⟩

theorem twoNodes_id_ne_nil : ([1] : Bytes) ≠ [] := List.cons_ne_nil 1 []

theorem twoNodes_pk_ne_nil : ([2] : Bytes) ≠ [] := List.cons_ne_nil 2 []

/-- Two nodes in memory. -/
def twoNodes : RightsHeap := fun n =>
  if n < 2 then
    let user : User := ⟨[1], [2], none, twoNodes_id_ne_nil, twoNodes_pk_ne_nil⟩
    some ⟨none, none, ⟨user, ⟨user, user, [3]⟩, none⟩⟩
  else none

theorem mem_twoNodes {n : ℕ} (h : n < 2) : n ∈ {n | vals twoNodes n ≠ none} := by
  change vals twoNodes n ≠ none
  simp [vals, twoNodes, h]

theorem rights_list_behaves_two :
    AlwaysBehaves (midHermesLlRightsListCreate twoNodes) [] [.rpush 0, .rpush 1, .rpop, .remove 0] ↔
      ¬PopsOnlyNode [] [.rpush 0, .rpush 1, .rpop, .remove 0] :=
  rights_list_behaves_iff twoNodes
    ⟨⟨mem_twoNodes (by decide), by decide⟩, ⟨mem_twoNodes (by decide), by decide⟩, trivial,
      (by decide : 0 ∈ [0]), trivial⟩

/-- One node is pushed and popped, and is still what an iterator yields. -/
theorem rights_list_misbehaves :
    LegalRun {n | vals twoNodes n ≠ none} [] [.rpush 0, .rpop] ∧
      ¬AlwaysBehaves (midHermesLlRightsListCreate twoNodes) [] [.rpush 0, .rpop] :=
  ⟨⟨⟨mem_twoNodes (by decide), by decide⟩, trivial, trivial⟩,
    not_alwaysBehaves (Or.inr (Or.inl ⟨rfl, rfl⟩))⟩

/-! ### The list of nodes of the rest of the model -/

/-- The values of a sequence of nodes. -/
def RightsState.values (s : RightsState) (ns : List ℕ) : List RightsListNode :=
  ns.filterMap (vals s.heap)

/-- **Pushing a node appends its value**, which is how the block object makes its list. -/
theorem HoldsNodes.rpush_values (h : HoldsNodes s ns) (hn : n ∉ ns) {node : RightsListNode}
    (hnode : vals s.heap n = some node) :
    ∃ s', midHermesLlRightsListRpush s n = some s' ∧ HoldsNodes s' (ns ++ [n]) ∧
      s'.values (ns ++ [n]) = s.values ns ++ [node] := by
  obtain ⟨c, hc, rfl⟩ := Option.map_eq_some_iff.mp hnode
  obtain ⟨s', hrun, hrep, hvals⟩ := h.rpush hn hc
  refine ⟨s', hrun, hrep, ?_⟩
  rw [RightsState.values, RightsState.values, List.filterMap_append, hvals,
    List.filterMap_cons_some hnode, List.filterMap_nil]

end Hermes
