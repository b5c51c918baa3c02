import Mathlib.Data.List.Basic
import Mathlib.Data.List.Induction
import Mathlib.Data.List.Nodup
import Mathlib.Logic.Function.Basic

/-!
# Doubly linked lists in memory

Cells that point to each other in both directions, in a memory that has a cell, or none, at
every pointer (`Linked.Heap`). `Linked.Seg H p ns q` says that the cells at `ns` are linked one
after the other, the first one back to `p` and the last one on to `q`. Segments are composed
(`Linked.seg_append`), left alone by writes elsewhere (`Linked.Seg.congr`) and changed at an
end by a write there (`Linked.Seg.setLast`, `Linked.Seg.setFirst`); an operation on a list is
then a split, a write at the ends and a composition. Following the pointers gives the cells of
a segment, in either direction (`Linked.Seg.walk_next`, `Linked.Seg.walk_prev`).
-/

namespace Linked

/-- A cell of a doubly linked list: two pointers and a value. -/
structure Cell (P α : Type) where
  /-- The pointer to the previous cell. -/
  prev : Option P
  /-- The pointer to the next cell. -/
  next : Option P
  /-- The value. -/
  val : α

/-- A memory of cells. -/
abbrev Heap (P α : Type) := P → Option (Cell P α)

namespace Heap

variable {P α : Type} [DecidableEq P]

/-- A write to a cell: nothing for a pointer that has none. -/
def modify (H : Heap P α) (n : P) (f : Cell P α → Cell P α) : Option (Heap P α) :=
  (H n).map fun c => Function.update H n (some (f c))

/-- `n->prev = p` -/
def setPrev (H : Heap P α) (n : P) (p : Option P) : Option (Heap P α) :=
  H.modify n fun c => { c with prev := p }

/-- `n->next = q` -/
def setNext (H : Heap P α) (n : P) (q : Option P) : Option (Heap P α) :=
  H.modify n fun c => { c with next := q }

/-- `free(n)` -/
def free (H : Heap P α) (n : P) : Heap P α := Function.update H n none

variable {H : Heap P α} {n : P} {c : Cell P α}

end Heap

section Seg

variable {P α : Type}

/-- **A segment of a list**: the cells at `ns`, linked one after the other, the first one back
to `p` and the last one on to `q`. -/
def Seg (H : Heap P α) : Option P → List P → Option P → Prop
  | _, [], _ => True
  | p, n :: ns, q => (∃ v, H n = some ⟨p, ns.head?.or q, v⟩) ∧ Seg H (some n) ns q

variable {H H' : Heap P α} {p q : Option P} {ns : List P}

@[simp] theorem seg_nil : Seg H p [] q ↔ True := Iff.rfl

theorem seg_cons {n : P} : Seg H p (n :: ns) q ↔
    (∃ v, H n = some ⟨p, ns.head?.or q, v⟩) ∧ Seg H (some n) ns q := Iff.rfl

theorem seg_singleton {n : P} : Seg H p [n] q ↔ ∃ v, H n = some ⟨p, q, v⟩ := by
  simp [seg_cons]

/-- **Composition of segments.** -/
theorem seg_append {xs ys : List P} : Seg H p (xs ++ ys) q ↔
    Seg H p xs (ys.head?.or q) ∧ Seg H (xs.getLast?.or p) ys q := by
  induction xs generalizing p with
  | nil => simp
  | cons n xs ih =>
    have hlast : (n :: xs).getLast?.or p = xs.getLast?.or (some n) := by
      cases xs with
      | nil => rfl
      | cons m xs =>
        rw [List.getLast?_cons_cons, List.getLast?_cons, Option.some_or, Option.some_or]
    have hhead : (xs ++ ys).head?.or q = xs.head?.or (ys.head?.or q) := by
      cases xs <;> rfl
    rw [List.cons_append, seg_cons, seg_cons, ih, hlast, hhead, and_assoc]

/-- Writes elsewhere leave a segment alone. -/
theorem Seg.congr (h : Seg H p ns q) (hH : ∀ n ∈ ns, H' n = H n) : Seg H' p ns q := by
  induction ns generalizing p with
  | nil => trivial
  | cons n ns ih =>
    obtain ⟨⟨v, hn⟩, hns⟩ := h
    refine ⟨⟨v, ?_⟩, ih hns fun m hm => hH m (List.mem_cons_of_mem n hm)⟩
    rw [hH n List.mem_cons_self, hn]

/-- The last cell of a segment made to point elsewhere. -/
theorem Seg.setLast {q' : Option P} (h : Seg H p ns q)
    (hlast : ∀ t c, ns.getLast? = some t → H t = some c → H' t = some { c with next := q' })
    (hH : ∀ n ∈ ns.dropLast, H' n = H n) : Seg H' p ns q' := by
  induction ns generalizing p with
  | nil => trivial
  | cons n ns ih =>
    obtain ⟨⟨v, hn⟩, hns⟩ := h
    cases ns with
    | nil => exact seg_singleton.mpr ⟨v, hlast n _ rfl hn⟩
    | cons m ns =>
      refine ⟨⟨v, ?_⟩, ih hns hlast fun k hk => hH k (List.mem_cons_of_mem n hk)⟩
      rw [hH n List.mem_cons_self, hn]
      rfl

/-- The first cell of a segment made to point elsewhere. -/
theorem Seg.setFirst {p' : Option P} (h : Seg H p ns q)
    (hfirst : ∀ t c, ns.head? = some t → H t = some c → H' t = some { c with prev := p' })
    (hH : ∀ n ∈ ns.tail, H' n = H n) : Seg H' p' ns q := by
  cases ns with
  | nil => trivial
  | cons n ns =>
    obtain ⟨⟨v, hn⟩, hns⟩ := h
    exact ⟨⟨v, hfirst n _ rfl hn⟩, hns.congr hH⟩

/-- There is a cell at each pointer of a segment. -/
theorem Seg.exists_cell (h : Seg H p ns q) {n : P} (hn : n ∈ ns) : ∃ c, H n = some c := by
  induction ns generalizing p with
  | nil => cases hn
  | cons m ns ih =>
    obtain ⟨⟨v, hm⟩, hns⟩ := h
    rcases List.mem_cons.mp hn with rfl | hn
    · exact ⟨_, hm⟩
    · exact ih hns hn

/-- The links of a cell of a list. -/
theorem Seg.cell {xs ys : List P} {n : P} (h : Seg H p (xs ++ n :: ys) q) :
    ∃ v, H n = some ⟨xs.getLast?.or p, ys.head?.or q, v⟩ :=
  (seg_append.mp h).2.1

/-- **Linking a cell** behind the last one. -/
theorem Seg.link {n : P} {v : α} (h : Seg H none ns none)
    (hn : H' n = some ⟨ns.getLast?, none, v⟩)
    (hlast : ∀ t c, ns.getLast? = some t → H t = some c → H' t = some { c with next := some n })
    (hH : ∀ m ∈ ns.dropLast, H' m = H m) : Seg H' none (ns ++ [n]) none := by
  refine seg_append.mpr ⟨h.setLast hlast hH, seg_singleton.mpr ⟨v, ?_⟩⟩
  rw [hn, Option.or_none]

/-- **Unlinking a cell**: its neighbours are made to point to each other. -/
theorem Seg.unlink {xs ys : List P} {n : P} (h : Seg H none (xs ++ n :: ys) none)
    (hprev : ∀ t c, xs.getLast? = some t → H t = some c → H' t = some { c with next := ys.head? })
    (hnext : ∀ t c, ys.head? = some t → H t = some c → H' t = some { c with prev := xs.getLast? })
    (hxs : ∀ m ∈ xs.dropLast, H' m = H m) (hys : ∀ m ∈ ys.tail, H' m = H m) :
    Seg H' none (xs ++ ys) none := by
  obtain ⟨hx, -, hy⟩ := seg_append.mp h
  refine seg_append.mpr ⟨?_, ?_⟩
  · rw [Option.or_none]
    exact hx.setLast hprev hxs
  · rw [Option.or_none]
    exact hy.setFirst hnext hys

/-! ### Following the pointers -/

/-- The cells on the way from a pointer to the end, by `link`: nothing if there is no cell at a
pointer, or none of the so many is the last one. -/
def walk (link : Cell P α → Option P) (H : Heap P α) : ℕ → Option P → Option (List P)
  | 0, _ => none
  | _ + 1, none => some []
  | fuel + 1, some n => (H n).bind fun c => (walk link H fuel (link c)).map (n :: ·)

/-- **Forwards**, the cells of a segment in order. -/
theorem Seg.walk_next (h : Seg H p ns none) {fuel : ℕ} (hfuel : ns.length < fuel) :
    walk Cell.next H fuel ns.head? = some ns := by
  induction ns generalizing p fuel with
  | nil =>
    obtain ⟨fuel, rfl⟩ := Nat.exists_eq_succ_of_ne_zero (Nat.ne_zero_of_lt hfuel)
    rfl
  | cons n ns ih =>
    obtain ⟨fuel, rfl⟩ := Nat.exists_eq_succ_of_ne_zero (Nat.ne_zero_of_lt hfuel)
    obtain ⟨⟨v, hn⟩, hns⟩ := h
    rw [List.head?_cons, walk, hn, Option.bind_some, Option.or_none,
      ih hns (Nat.lt_of_succ_lt_succ hfuel), Option.map_some]

/-- **Backwards**, in reverse order. -/
theorem Seg.walk_prev (h : Seg H none ns q) {fuel : ℕ} (hfuel : ns.length < fuel) :
    walk Cell.prev H fuel ns.getLast? = some ns.reverse := by
  induction ns using List.reverseRecOn generalizing q fuel with
  | nil =>
    obtain ⟨fuel, rfl⟩ := Nat.exists_eq_succ_of_ne_zero (Nat.ne_zero_of_lt hfuel)
    rfl
  | append_singleton ns n ih =>
    obtain ⟨fuel, rfl⟩ := Nat.exists_eq_succ_of_ne_zero (Nat.ne_zero_of_lt hfuel)
    obtain ⟨hns, hn⟩ := seg_append.mp h
    obtain ⟨v, hn⟩ := seg_singleton.mp hn
    rw [List.length_append, List.length_singleton] at hfuel
    rw [List.getLast?_concat, walk, hn, Option.bind_some, Option.or_none,
      ih hns (Nat.lt_of_succ_lt_succ hfuel), Option.map_some, List.reverse_append]
    rfl

end Seg

end Linked
