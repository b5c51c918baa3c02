import Mathlib.Data.List.Induction
import Mathlib.Data.List.Lex
import Mathlib.Data.List.Nodup
import Mathlib.Order.Compare
import Hermes.Common

/-!
# The function table

The hash table of `common/hm_hash_table.c`, in which an RPC server looks up the handler
of a signature. Its keys are kept in chains, and a chain is searched by comparing **only as
many bytes as the searched key has**: this makes a key equal to every stored key it is a
prefix of, and it makes the comparison read past the end of every stored key that is
shorter.

The table is a finite map as long as neither happens (`Hermes.isFiniteMap_iff`), and the
condition for that, `Hermes.Searchable`, is on the keys alone. Under it the chains stay in
the lexicographic order of byte strings, so a search is the search in a sorted list
(`Hermes.finds_iff`).
-/

namespace Hermes

/-- Bytes in the order of their values. -/
local instance byteLinearOrder : LinearOrder UInt8 where
  le_refl := UInt8.le_refl
  le_trans _ _ _ := UInt8.le_trans
  le_antisymm _ _ := UInt8.le_antisymm
  le_total := UInt8.le_total
  lt_iff_le_not_ge a b := by rw [UInt8.not_le]; exact ⟨fun h => ⟨UInt8.le_of_lt h, h⟩, fun h => h.2⟩
  toDecidableLE := inferInstance
  toDecidableLT := inferInstance
  toDecidableEq := inferInstance

/-- `memcmp`: how the first `n` bytes of two objects compare. There is no result when one
of them does not have `n` bytes, since it is then read beyond its end. -/
def memcmp (n : ℕ) (s₁ s₂ : Bytes) : Option Ordering :=
  if n ≤ s₁.length ∧ n ≤ s₂.length then
    if s₁.take n < s₂.take n then some .lt
    else if s₁.take n = s₂.take n then some .eq
    else some .gt
  else none

/-- `HM_HASH_TABLE_CAP` -/
def hmHashTableCap : ℕ := 1024

/-- `hm_hash_`, with a hash of 64 bits. -/
def hmHash (key : Bytes) : ℕ :=
  (key.foldl (fun (hash : UInt64) b => ((hash <<< 5) + hash) + b.toUInt64) 5381).toNat %
    hmHashTableCap

/-- `hm_hash_table_entry_t`, without its link to the next entry of the chain. -/
structure HmHashTableEntry (V : Type) where
  /-- `key`, of `key_length` bytes. -/
  key : Bytes
  /-- `val`, of which the table keeps a copy. -/
  val : V

/-- `hm_hash_table_t`: a chain of entries for each hash. -/
structure HmHashTable (V : Type) where
  /-- `t` -/
  t : ℕ → List (HmHashTableEntry V)

variable {V : Type}

/-- `hm_hash_table_create` -/
def hmHashTableCreate : HmHashTable V := ⟨fun _ => []⟩

/-- The loop of `hm_hash_table_set` and of `hm_hash_table_get`: it passes the entries that
compare as smaller. The chain is split into those and the rest. -/
def hmHashTableSeek (key : Bytes) :
    List (HmHashTableEntry V) →
      Option (List (HmHashTableEntry V) × List (HmHashTableEntry V))
  | [] => some ([], [])
  | entry :: next =>
    match memcmp key.length key entry.key with
    | none => none
    | some .gt => (hmHashTableSeek key next).map fun p => (entry :: p.1, p.2)
    | some _ => some ([], entry :: next)

/-- The test after the loop: whether there is an entry left that compares as equal. -/
def hmHashTableHit (key : Bytes) : List (HmHashTableEntry V) → Option Bool
  | [] => some false
  | entry :: _ => (memcmp key.length key entry.key).map (· == .eq)

/-- `hm_hash_table_set`: no result when a comparison reads beyond the end of a key. -/
def hmHashTableSet (table : HmHashTable V) (key : Bytes) (val : V) :
    Option (Reply Unit × HmHashTable V) :=
  if key = [] then some (.error .invalidParameter, table)
  else
    (hmHashTableSeek key (table.t (hmHash key))).bind fun p =>
      (hmHashTableHit key p.2).map fun hit =>
        if hit then (.error .fail, table)
        else (.ok (), ⟨Function.update table.t (hmHash key) (p.1 ++ ⟨key, val⟩ :: p.2)⟩)

/-- `hm_hash_table_get`: no result when a comparison reads beyond the end of a key. -/
def hmHashTableGet (table : HmHashTable V) (key : Bytes) : Option (Reply V) :=
  if key = [] then some (.error .invalidParameter)
  else
    (hmHashTableSeek key (table.t (hmHash key))).bind fun p =>
      (hmHashTableHit key p.2).map fun hit =>
        match hit, p.2 with
        | true, entry :: _ => .ok entry.val
        | _, _ => .error .fail

/-! ### Searching a chain -/

/-- Bytes after as many as the other string has do not count in a comparison. -/
theorem append_lt_iff {a b : Bytes} (h : a.length = b.length) (s : Bytes) :
    a ++ s < b ↔ a < b := by
  induction a generalizing b with
  | nil =>
    obtain rfl : b = [] := by simpa using h.symm
    simp
  | cons x a ih =>
    obtain _ | ⟨y, b⟩ := b
    · simp at h
    · rw [List.cons_append, List.cons_lt_cons_iff, List.cons_lt_cons_iff, ih (by simpa using h)]

/-- A comparison of a key with one that is shorter reads beyond the end of that one. -/
theorem memcmp_eq_none {k j : Bytes} (h : j.length < k.length) :
    memcmp k.length k j = none := by
  rw [memcmp, if_neg fun hc => by omega]

/-- With one that is not, it looks at the head of that one: the key may be smaller, -/
theorem memcmp_eq_gt {k j : Bytes} (h : k.length ≤ j.length) (hj : j < k) :
    memcmp k.length k j = some .gt := by
  have hlen : (j.take k.length).length = k.length := by rw [List.length_take]; omega
  have hlt : j.take k.length < k := by
    rw [← append_lt_iff hlen (j.drop k.length), List.take_append_drop]
    exact hj
  rw [memcmp, if_pos ⟨le_rfl, h⟩, List.take_length, if_neg hlt.not_gt, if_neg hlt.ne']

/-- equal, which only says that the key is a prefix, -/
theorem memcmp_eq_eq {k j : Bytes} (h : k <+: j) : memcmp k.length k j = some .eq := by
  have htake : k = j.take k.length := List.prefix_iff_eq_take.mp h
  rw [memcmp, if_pos ⟨le_rfl, h.length_le⟩, List.take_length, ← htake, if_neg (lt_irrefl k),
    if_pos rfl]

/-- or larger. -/
theorem memcmp_eq_lt {k j : Bytes} (h : k.length ≤ j.length) (hj : k < j) (hp : ¬k <+: j) :
    memcmp k.length k j = some .lt := by
  have hlen : (j.take k.length).length = k.length := by rw [List.length_take]; omega
  have hle : ¬j.take k.length < k := by
    rw [← append_lt_iff hlen (j.drop k.length), List.take_append_drop]
    exact hj.not_gt
  have hne : k ≠ j.take k.length := fun hc => hp (List.prefix_iff_eq_take.mpr hc)
  rw [memcmp, if_pos ⟨le_rfl, h⟩, List.take_length, if_pos (lt_of_le_of_ne (not_lt.mp hle) hne)]

/-- **When a search is good.** The searched key, among the keys `ks` in increasing order,
meets no shorter key: no smaller key is shorter, and unless it is there itself, the next
larger key is not shorter and does not begin with it. -/
def SearchesAmong (ks : List Bytes) (k : Bytes) : Prop :=
  (∀ j ∈ ks, j < k → k.length ≤ j.length) ∧
    (k ∉ ks → ∀ j ∈ ks, k < j → (∀ j' ∈ ks, k < j' → j ≤ j') →
      k.length ≤ j.length ∧ ¬k <+: j)

instance (ks : List Bytes) (k : Bytes) : Decidable (SearchesAmong ks k) :=
  inferInstanceAs (Decidable (_ ∧ _))

/-- Only which keys there are counts. -/
theorem searchesAmong_congr {ks ks' : List Bytes} (h : ∀ j, j ∈ ks ↔ j ∈ ks') (k : Bytes) :
    SearchesAmong ks k ↔ SearchesAmong ks' k := by
  simp only [SearchesAmong, h]

/-- A smaller key that is not shorter is passed. -/
theorem searchesAmong_cons_of_lt {k j₀ : Bytes} {js : List Bytes} (hlen : k.length ≤ j₀.length)
    (h : j₀ < k) : SearchesAmong (j₀ :: js) k ↔ SearchesAmong js k := by
  have hmem : k ∈ j₀ :: js ↔ k ∈ js := by simp [h.ne']
  constructor
  · rintro ⟨h1, h2⟩
    refine ⟨fun j hj => h1 j (List.mem_cons_of_mem _ hj), fun hk j hj hlt hmin => ?_⟩
    refine h2 (fun hk' => hk (hmem.mp hk')) j (List.mem_cons_of_mem _ hj) hlt ?_
    rintro j' (_ | ⟨_, hj'⟩) hlt'
    · exact absurd hlt' h.not_gt
    · exact hmin j' hj' hlt'
  · rintro ⟨h1, h2⟩
    refine ⟨?_, fun hk j hj hlt hmin => ?_⟩
    · rintro j (_ | ⟨_, hj⟩) hlt
      · exact hlen
      · exact h1 j hj hlt
    · have hj' : j ∈ js := (List.mem_cons.mp hj).resolve_left fun hc => hlt.not_gt (hc ▸ h)
      exact h2 (fun hk' => hk (hmem.mpr hk')) j hj' hlt fun j' hj' =>
        hmin j' (List.mem_cons_of_mem _ hj')

/-- The search ends at the first key that is not smaller. -/
theorem searchesAmong_cons_of_le {k j₀ : Bytes} {js : List Bytes} (h : k ≤ j₀)
    (hjs : ∀ j ∈ js, j₀ < j) :
    SearchesAmong (j₀ :: js) k ↔ k = j₀ ∨ k.length ≤ j₀.length ∧ ¬k <+: j₀ := by
  have hmin : ∀ j ∈ j₀ :: js, j₀ ≤ j := by
    rintro j (_ | ⟨_, hj⟩)
    · exact le_rfl
    · exact (hjs j hj).le
  constructor
  · rintro ⟨-, h2⟩
    rcases eq_or_ne k j₀ with heq | hne
    · exact Or.inl heq
    · have hlt : k < j₀ := lt_of_le_of_ne h hne
      refine Or.inr (h2 (fun hk => ?_) j₀ List.mem_cons_self hlt fun j hj _ => hmin j hj)
      exact absurd (hmin k hk) hlt.not_ge
  · intro hor
    refine ⟨fun j hj hlt => absurd (h.trans (hmin j hj)) hlt.not_ge, fun hk j hj hlt hleast => ?_⟩
    rcases hor with rfl | hor
    · exact absurd List.mem_cons_self hk
    · have hlt₀ : k < j₀ := lt_of_le_of_ne h fun hc => hk (hc ▸ List.mem_cons_self)
      obtain rfl : j = j₀ := le_antisymm (hleast j₀ List.mem_cons_self hlt₀) (hmin j hj)
      exact hor

/-- The keys of a chain. -/
def keys (chain : List (HmHashTableEntry V)) : List Bytes := chain.map (·.key)

@[simp] theorem keys_nil : keys ([] : List (HmHashTableEntry V)) = [] := rfl

@[simp] theorem keys_cons (e : HmHashTableEntry V) (es : List (HmHashTableEntry V)) :
    keys (e :: es) = e.key :: keys es := rfl

@[simp] theorem keys_append (es es' : List (HmHashTableEntry V)) :
    keys (es ++ es') = keys es ++ keys es' := List.map_append

/-- A search goes right: it reads nothing but keys, and a hit is the key itself. -/
def Finds (k : Bytes) (chain : List (HmHashTableEntry V)) : Prop :=
  ∃ before after, hmHashTableSeek k chain = some (before, after) ∧
    hmHashTableHit k after = some (decide (k ∈ keys chain))

section Cons

variable {k : Bytes} {e : HmHashTableEntry V} {es : List (HmHashTableEntry V)}

/-- A search passes an entry with a smaller key. -/
theorem finds_cons_of_lt (hlen : k.length ≤ e.key.length) (he : e.key < k) :
    Finds k (e :: es) ↔ Finds k es := by
  have hmem : k ∈ keys (e :: es) ↔ k ∈ keys es := by simp [he.ne']
  simp only [Finds, hmHashTableSeek, memcmp_eq_gt hlen he, Option.map_eq_some_iff, hmem]
  constructor
  · rintro ⟨before, after, ⟨⟨before', after'⟩, hseek, heq⟩, hhit⟩
    obtain ⟨-, rfl⟩ := Prod.mk.inj heq
    exact ⟨before', after', hseek, hhit⟩
  · rintro ⟨before, after, hseek, hhit⟩
    exact ⟨e :: before, after, ⟨(before, after), hseek, rfl⟩, hhit⟩

/-- A search stops at an entry with a key that is not shorter and not smaller, and goes
right there unless the key only begins with the searched one. -/
theorem finds_cons_of_le (hlen : k.length ≤ e.key.length) (he : k ≤ e.key)
    (hes : ∀ j ∈ keys es, e.key < j) : Finds k (e :: es) ↔ (k <+: e.key → k = e.key) := by
  have hes' : k ∉ keys es := fun hk => absurd (hes k hk) he.not_gt
  by_cases hp : k <+: e.key
  · have hseek : hmHashTableSeek k (e :: es) = some ([], e :: es) := by
      simp [hmHashTableSeek, memcmp_eq_eq hp]
    have hhit : hmHashTableHit k (e :: es) = some true := by
      simp [hmHashTableHit, memcmp_eq_eq hp]
    constructor
    · rintro ⟨before, after, hseek', hhit'⟩ -
      obtain ⟨rfl, rfl⟩ := Prod.mk.inj (Option.some.inj (hseek.symm.trans hseek'))
      simpa [hhit, hes'] using hhit'
    · intro h
      have hmem : k ∈ keys (e :: es) := by simp [h hp]
      exact ⟨[], e :: es, hseek, by rw [hhit, decide_eq_true hmem]⟩
  · have hne : k ≠ e.key := fun hc => hp (hc ▸ List.prefix_rfl)
    have hlt := memcmp_eq_lt hlen (lt_of_le_of_ne he hne) hp
    refine iff_of_true ⟨[], e :: es, ?_, ?_⟩ fun h => absurd h hp
    · simp [hmHashTableSeek, hlt]
    · simp [hmHashTableHit, hlt, hne, hes']

/-- A search reads beyond the end of a shorter key. -/
theorem not_finds_cons (hlen : e.key.length < k.length) : ¬Finds k (e :: es) := by
  rintro ⟨before, after, hseek, -⟩
  simp [hmHashTableSeek, memcmp_eq_none hlen] at hseek

end Cons

/-- **A search in an increasing chain goes right exactly when it meets neither a shorter
key nor one it is a proper prefix of.** -/
theorem finds_iff (k : Bytes) (chain : List (HmHashTableEntry V))
    (hs : (keys chain).Pairwise (· < ·)) : Finds k chain ↔ SearchesAmong (keys chain) k := by
  induction chain with
  | nil => simp [Finds, SearchesAmong, hmHashTableSeek, hmHashTableHit]
  | cons e es ih =>
    rw [keys_cons] at hs ⊢
    obtain ⟨hes, hs⟩ := List.pairwise_cons.mp hs
    rcases lt_or_ge e.key.length k.length with hlen | hlen
    · -- A shorter key is the first one the search meets, on whichever side it is.
      refine iff_of_false (not_finds_cons hlen) fun h => ?_
      rcases lt_or_ge e.key k with he | he
      · exact absurd (h.1 e.key List.mem_cons_self he) hlen.not_ge
      · rcases (searchesAmong_cons_of_le he hes).mp h with rfl | hle
        · exact lt_irrefl _ hlen
        · exact absurd hle.1 hlen.not_ge
    · rcases lt_or_ge e.key k with he | he
      · rw [finds_cons_of_lt hlen he, searchesAmong_cons_of_lt hlen he, ih hs]
      · rw [finds_cons_of_le hlen he hes, searchesAmong_cons_of_le he hes]
        constructor
        · intro h
          rcases em (k <+: e.key) with hp | hp
          · exact Or.inl (h hp)
          · exact Or.inr ⟨hlen, hp⟩
        · rintro (rfl | h) hp
          · rfl
          · exact absurd hp h.2

/-- Where a search splits an increasing chain. -/
theorem seek_spec {k : Bytes} {chain before after : List (HmHashTableEntry V)}
    (h : hmHashTableSeek k chain = some (before, after)) (hs : (keys chain).Pairwise (· < ·)) :
    chain = before ++ after ∧ (∀ j ∈ keys before, j < k) ∧ ∀ j ∈ keys after, k ≤ j := by
  induction chain generalizing before with
  | nil =>
    obtain ⟨rfl, rfl⟩ := Prod.mk.inj (Option.some.inj h)
    simp
  | cons e es ih =>
    rw [keys_cons] at hs
    obtain ⟨hes, hs⟩ := List.pairwise_cons.mp hs
    rcases lt_or_ge e.key.length k.length with hlen | hlen
    · simp [hmHashTableSeek, memcmp_eq_none hlen] at h
    rcases lt_or_ge e.key k with he | he
    · simp only [hmHashTableSeek, memcmp_eq_gt hlen he, Option.map_eq_some_iff] at h
      obtain ⟨⟨before', after'⟩, hseek, heq⟩ := h
      obtain ⟨rfl, rfl⟩ := Prod.mk.inj heq
      obtain ⟨rfl, hb, ha⟩ := ih hseek hs
      refine ⟨rfl, ?_, ha⟩
      rintro j (_ | ⟨_, hj⟩)
      · exact he
      · exact hb j hj
    · have hstop : some ([], e :: es) = some (before, after) := by
        by_cases hp : k <+: e.key
        · simpa [hmHashTableSeek, memcmp_eq_eq hp] using h
        · have hlt : k < e.key := lt_of_le_of_ne he fun hc => hp (hc ▸ List.prefix_rfl)
          simpa [hmHashTableSeek, memcmp_eq_lt hlen hlt hp] using h
      obtain ⟨rfl, rfl⟩ := Prod.mk.inj (Option.some.inj hstop)
      refine ⟨rfl, by simp, ?_⟩
      rintro j (_ | ⟨_, hj⟩)
      · exact he
      · exact (he.trans_lt (hes j hj)).le

/-! ### The table as a map -/

/-- The value of the first of `sets` whose key is `k`. -/
def firstSet (sets : List (Bytes × V)) (k : Bytes) : Option V :=
  (sets.find? fun s => s.1 = k).map Prod.snd

/-- What looking `k` up should give. -/
def lookupReply (sets : List (Bytes × V)) (k : Bytes) : Reply V :=
  match firstSet sets k with
  | some val => .ok val
  | none => .error .fail

/-- What setting `k` should give. -/
def setReply (sets : List (Bytes × V)) (k : Bytes) : Reply Unit :=
  if k ∈ sets.map Prod.fst then .error .fail else .ok ()

/-- `hm_hash_table_set`, again and again, on a fresh table. -/
def setAll (sets : List (Bytes × V)) : Option (HmHashTable V) :=
  sets.foldlM (fun table s => (hmHashTableSet table s.1 s.2).map Prod.snd) hmHashTableCreate

/-- Something holds of every element of a list and those before it. -/
def EachAfter {α : Type} (P : List α → α → Prop) (l : List α) : Prop :=
  ∀ earlier a later, l = earlier ++ a :: later → P earlier a

/-- The function table is a finite map: after any of `sets`, setting the next key is
refused exactly if it was set before, and after all of them looking up `k` gives the value
first set for it. All this without a read beyond the end of a key. -/
def IsFiniteMap (sets : List (Bytes × V)) (k : Bytes) : Prop :=
  EachAfter (fun earlier s => ∃ table table', setAll earlier = some table ∧
    hmHashTableSet table s.1 s.2 = some (setReply earlier s.1, table')) sets ∧
  ∃ table, setAll sets = some table ∧ hmHashTableGet table k = some (lookupReply sets k)

/-- Searching for `k` after the keys `ks` were set is a good search in its bucket. -/
def Searchable (ks : List Bytes) (k : Bytes) : Prop :=
  SearchesAmong (ks.filter fun j => hmHash j = hmHash k) k

instance (ks : List Bytes) (k : Bytes) : Decidable (Searchable ks k) :=
  inferInstanceAs (Decidable (SearchesAmong _ _))

theorem firstSet_eq_none {sets : List (Bytes × V)} {k : Bytes} :
    firstSet sets k = none ↔ k ∉ sets.map Prod.fst := by
  rw [firstSet, Option.map_eq_none_iff, List.find?_eq_none, List.mem_map]
  simp only [decide_eq_true_eq, not_exists, not_and]

theorem firstSet_append_singleton (sets : List (Bytes × V)) (s : Bytes × V) (k : Bytes) :
    firstSet (sets ++ [s]) k = (firstSet sets k).or (if s.1 = k then some s.2 else none) := by
  rw [firstSet, List.find?_append, firstSet]
  cases sets.find? fun s => s.1 = k with
  | some s' => rfl
  | none => by_cases h : s.1 = k <;> simp [h]

/-- The table holds the map of `sets`: every chain is increasing, and has the keys of its
bucket with their first values. -/
structure Represents (table : HmHashTable V) (sets : List (Bytes × V)) : Prop where
  increasing : ∀ b, (keys (table.t b)).Pairwise (· < ·)
  mem_iff : ∀ b e, e ∈ table.t b ↔ hmHash e.key = b ∧ firstSet sets e.key = some e.val

theorem represents_create : Represents (hmHashTableCreate : HmHashTable V) [] :=
  ⟨fun _ => List.Pairwise.nil, fun b e => by simp [hmHashTableCreate, firstSet]⟩

section Table

variable {table : HmHashTable V} {sets : List (Bytes × V)}

theorem Represents.mem_keys (h : Represents table sets) {b : ℕ} {k : Bytes} :
    k ∈ keys (table.t b) ↔ hmHash k = b ∧ k ∈ sets.map Prod.fst := by
  have hfirst : k ∈ sets.map Prod.fst ↔ ∃ v, firstSet sets k = some v := by
    rw [← not_iff_not, ← firstSet_eq_none, ← Option.ne_none_iff_exists', not_not]
  rw [hfirst, keys, List.mem_map]
  constructor
  · rintro ⟨e, he, rfl⟩
    obtain ⟨hb, hv⟩ := (h.mem_iff b e).mp he
    exact ⟨hb, e.val, hv⟩
  · rintro ⟨hb, v, hv⟩
    exact ⟨⟨k, v⟩, (h.mem_iff b _).mpr ⟨hb, hv⟩, rfl⟩

/-- Whether a search in the table goes right is a matter of the keys. -/
theorem Represents.finds_iff (h : Represents table sets) (k : Bytes) :
    Finds k (table.t (hmHash k)) ↔ Searchable (sets.map Prod.fst) k := by
  rw [Hermes.finds_iff k _ (h.increasing _), Searchable]
  refine searchesAmong_congr (fun j => ?_) k
  rw [h.mem_keys, List.mem_filter, decide_eq_true_eq, and_comm]

theorem Represents.mem_chain_iff (h : Represents table sets) (k : Bytes) :
    k ∈ keys (table.t (hmHash k)) ↔ k ∈ sets.map Prod.fst := by
  rw [h.mem_keys]
  exact and_iff_right rfl

/-- The entry a search ends at, if the key is there. -/
theorem exists_head_of_mem {k : Bytes} {chain before after : List (HmHashTableEntry V)}
    (hseek : hmHashTableSeek k chain = some (before, after))
    (hs : (keys chain).Pairwise (· < ·)) (hk : k ∈ keys chain) :
    ∃ e es, after = e :: es ∧ e.key = k := by
  obtain ⟨rfl, hb, ha⟩ := seek_spec hseek hs
  rw [keys_append] at hk hs
  have hk : k ∈ keys after := (List.mem_append.mp hk).resolve_left fun hc => lt_irrefl k (hb k hc)
  obtain _ | ⟨e, es⟩ := after
  · exact absurd hk List.not_mem_nil
  · refine ⟨e, es, rfl, le_antisymm ?_ (ha e.key List.mem_cons_self)⟩
    have hes := List.pairwise_cons.mp (List.pairwise_append.mp hs).2.1
    rcases List.mem_cons.mp hk with rfl | hk
    · exact le_rfl
    · exact (hes.1 k hk).le

/-- **A lookup gives the first value set for its key exactly when its search goes
right.** -/
theorem Represents.get_iff (h : Represents table sets) {k : Bytes} (hk : k ≠ []) :
    hmHashTableGet table k = some (lookupReply sets k) ↔ Searchable (sets.map Prod.fst) k := by
  rw [← h.finds_iff, hmHashTableGet, if_neg hk, lookupReply]
  have hmem := h.mem_chain_iff k
  constructor
  · intro hget
    obtain ⟨⟨before, after⟩, hseek, hget⟩ := Option.bind_eq_some_iff.mp hget
    obtain ⟨hit, hhit, hreply⟩ := Option.map_eq_some_iff.mp hget
    refine ⟨before, after, hseek, hhit.trans (congrArg some ?_)⟩
    -- The reply tells whether the chain was hit.
    cases hfirst : firstSet sets k with
    | none =>
      have hk' : k ∉ keys (table.t (hmHash k)) := by
        rw [hmem]
        exact firstSet_eq_none.mp hfirst
      rw [decide_eq_false hk']
      obtain _ | ⟨e, es⟩ := after
      · simpa [hmHashTableHit] using hhit.symm
      · cases hit with
        | false => rfl
        | true => simp [hfirst] at hreply
    | some v =>
      have hk' : k ∈ keys (table.t (hmHash k)) := by
        rw [hmem]
        by_contra hc
        simp [firstSet_eq_none.mpr hc] at hfirst
      rw [decide_eq_true hk']
      cases hit with
      | false => simp [hfirst] at hreply
      | true => rfl
  · rintro ⟨before, after, hseek, hhit⟩
    rw [hseek, Option.bind_some, hhit, Option.map_some]
    -- The chain is increasing, so a hit is the entry of this key.
    by_cases hk' : k ∈ keys (table.t (hmHash k))
    · obtain ⟨e, es, rfl, rfl⟩ := exists_head_of_mem hseek (h.increasing _) hk'
      have he : e ∈ table.t (hmHash e.key) := by
        rw [(seek_spec hseek (h.increasing _)).1]
        simp
      rw [decide_eq_true hk', ((h.mem_iff _ e).mp he).2]
    · rw [decide_eq_false hk', firstSet_eq_none.mpr fun hc => hk' (hmem.mpr hc)]

/-- **Setting a key is refused exactly when it should be, exactly when its search goes
right.** -/
theorem Represents.set_iff (h : Represents table sets) {k : Bytes} (hk : k ≠ []) (v : V) :
    (∃ table', hmHashTableSet table k v = some (setReply sets k, table')) ↔
      Searchable (sets.map Prod.fst) k := by
  rw [← h.finds_iff, hmHashTableSet, if_neg hk, setReply]
  have hmem : decide (k ∈ keys (table.t (hmHash k))) = decide (k ∈ sets.map Prod.fst) :=
    decide_eq_decide.mpr (h.mem_chain_iff k)
  constructor
  · rintro ⟨table', hset⟩
    obtain ⟨⟨before, after⟩, hseek, hset⟩ := Option.bind_eq_some_iff.mp hset
    obtain ⟨hit, hhit, hreply⟩ := Option.map_eq_some_iff.mp hset
    refine ⟨before, after, hseek, hhit.trans (congrArg some ?_)⟩
    rw [hmem]
    cases hit <;> by_cases hk' : k ∈ sets.map Prod.fst <;> simp [hk'] at hreply ⊢
  · rintro ⟨before, after, hseek, hhit⟩
    rw [hseek, Option.bind_some, hhit, Option.map_some, hmem]
    by_cases hk' : k ∈ sets.map Prod.fst
    · exact ⟨table, by simp [hk']⟩
    · exact ⟨_, by simp only [hk', decide_false, if_false, Bool.false_eq_true]; rfl⟩

theorem firstSet_append_of_mem {k : Bytes} (hk : k ∈ sets.map Prod.fst) (v : V) (j : Bytes) :
    firstSet (sets ++ [(k, v)]) j = firstSet sets j := by
  rw [firstSet_append_singleton]
  by_cases hj : k = j
  · subst hj
    obtain ⟨v', hv'⟩ := Option.ne_none_iff_exists'.mp (mt firstSet_eq_none.mp (not_not.mpr hk))
    rw [hv', Option.some_or]
  · rw [if_neg hj, Option.or_none]

/-- The chains of a table after a new key was put between smaller and larger ones. -/
theorem Represents.insert (h : Represents table sets) {k : Bytes} {v : V}
    {before after : List (HmHashTableEntry V)} (hnew : k ∉ sets.map Prod.fst)
    (hchain : table.t (hmHash k) = before ++ after) (hb : ∀ j ∈ keys before, j < k)
    (ha : ∀ j ∈ keys after, k ≤ j) :
    Represents ⟨Function.update table.t (hmHash k) (before ++ ⟨k, v⟩ :: after)⟩
      (sets ++ [(k, v)]) := by
  have hinc := h.increasing (hmHash k)
  have hnew' : k ∉ keys (before ++ after) := by
    rw [← hchain, h.mem_chain_iff]
    exact hnew
  rw [hchain, keys_append, List.pairwise_append] at hinc
  constructor
  · intro b
    rcases eq_or_ne b (hmHash k) with rfl | hne
    · simp only [Function.update_self, keys_append, keys_cons]
      -- The chain stays increasing, for the key is not in it yet.
      have ha' : ∀ j ∈ keys after, k < j := fun j hj =>
        lt_of_le_of_ne (ha j hj) fun hc => hnew' (by simp [hc, hj])
      refine List.pairwise_append.mpr ⟨hinc.1, List.pairwise_cons.mpr ⟨ha', hinc.2.1⟩, ?_⟩
      rintro i hi j (_ | ⟨_, hj⟩)
      · exact hb i hi
      · exact (hb i hi).trans (ha' j hj)
    · simp only [Function.update_of_ne hne]
      exact h.increasing b
  · intro b e
    have hold := h.mem_iff b e
    have hfirst := firstSet_append_singleton sets (k, v) e.key
    rcases eq_or_ne k e.key with heq | hne
    · -- The new key: no entry had it, the new one does.
      subst heq
      have hnone : firstSet sets e.key = none := firstSet_eq_none.mpr hnew
      have hmem : e ∉ before ++ after := fun hc => hnew' (List.mem_map_of_mem hc)
      rw [hfirst, hnone, if_pos rfl, Option.none_or, Option.some_inj]
      rcases eq_or_ne b (hmHash e.key) with rfl | hb'
      · simp only [Function.update_self, List.mem_append, List.mem_cons]
        refine ⟨fun he => ⟨trivial, ?_⟩, fun he => Or.inr (Or.inl ?_)⟩
        · rcases he with he | he | he
          · exact absurd (List.mem_append_left _ he) hmem
          · rw [he]
          · exact absurd (List.mem_append_right _ he) hmem
        · rw [he.2]
      · simp only [Function.update_of_ne hb', hold, hnone, reduceCtorEq, and_false, false_iff]
        exact fun hc => hb' hc.1.symm
    · -- Any other key keeps its entry.
      rw [hfirst, if_neg hne, Option.or_none, ← hold]
      rcases eq_or_ne b (hmHash k) with rfl | hb'
      · simp only [Function.update_self, hchain, List.mem_append, List.mem_cons]
        refine or_congr_right (or_iff_right fun hc => hne ?_)
        rw [hc]
      · simp only [Function.update_of_ne hb']

/-- The table goes on being the map of what was set. -/
theorem Represents.set (h : Represents table sets) {k : Bytes} (hk : k ≠ []) {v : V}
    {table' : HmHashTable V} (hset : hmHashTableSet table k v = some (setReply sets k, table')) :
    Represents table' (sets ++ [(k, v)]) := by
  rw [hmHashTableSet, if_neg hk, setReply] at hset
  obtain ⟨⟨before, after⟩, hseek, hset⟩ := Option.bind_eq_some_iff.mp hset
  obtain ⟨hit, hhit, hreply⟩ := Option.map_eq_some_iff.mp hset
  obtain ⟨hchain, hb, ha⟩ := seek_spec hseek (h.increasing _)
  by_cases hmem : k ∈ sets.map Prod.fst
  · obtain rfl : table = table' := by
      cases hit <;> simp [hmem] at hreply
      exact hreply
    exact ⟨h.increasing, fun b e => by rw [firstSet_append_of_mem hmem, h.mem_iff]⟩
  · obtain rfl : _ = table' := by
      cases hit with
      | false => exact (Prod.mk.inj hreply).2
      | true => simp [hmem] at hreply
    exact h.insert hmem hchain hb ha

end Table

theorem eachAfter_append_singleton {α : Type} {P : List α → α → Prop} {l : List α} {a : α} :
    EachAfter P (l ++ [a]) ↔ EachAfter P l ∧ P l a := by
  constructor
  · intro h
    refine ⟨fun earlier b later hl => h earlier b (later ++ [a]) (by simp [hl]), h l a [] rfl⟩
  · rintro ⟨h, ha⟩ earlier b later hl
    obtain rfl | ⟨later', c, rfl⟩ := later.eq_nil_or_concat
    · obtain ⟨rfl, heq⟩ := List.append_inj' hl rfl
      obtain rfl : a = b := by simpa using heq
      exact ha
    · rw [List.concat_eq_append, ← List.cons_append, ← List.append_assoc] at hl
      obtain ⟨rfl, -⟩ := List.append_inj' hl rfl
      exact h earlier b later' rfl

theorem setAll_append_singleton (sets : List (Bytes × V)) (s : Bytes × V) :
    setAll (sets ++ [s]) =
      (setAll sets).bind fun table => (hmHashTableSet table s.1 s.2).map Prod.snd := by
  simp [setAll, List.foldlM_append]

/-- As long as every search goes right, the table is the map of what was set. -/
theorem represents_setAll {sets : List (Bytes × V)} (hne : ∀ s ∈ sets, s.1 ≠ [])
    (h : EachAfter Searchable (sets.map Prod.fst)) :
    ∃ table, setAll sets = some table ∧ Represents table sets := by
  induction sets using List.reverseRecOn with
  | nil => exact ⟨hmHashTableCreate, rfl, represents_create⟩
  | append_singleton sets s ih =>
    rw [List.map_append, List.map_singleton, eachAfter_append_singleton] at h
    have hs : s.1 ≠ [] := hne s (by simp)
    obtain ⟨table, hall, hrep⟩ := ih (fun s' hs' => hne s' (List.mem_append_left _ hs')) h.1
    obtain ⟨table', hset⟩ := (hrep.set_iff hs s.2).mpr h.2
    exact ⟨table', by rw [setAll_append_singleton, hall]; simp [hset], hrep.set hs hset⟩

/-- Every setting is answered as it should be exactly when every search goes right. -/
theorem eachAfter_set_iff {sets : List (Bytes × V)} (hne : ∀ s ∈ sets, s.1 ≠ []) :
    EachAfter (fun earlier s => ∃ table table', setAll earlier = some table ∧
        hmHashTableSet table s.1 s.2 = some (setReply earlier s.1, table')) sets ↔
      EachAfter Searchable (sets.map Prod.fst) := by
  induction sets using List.reverseRecOn with
  | nil => exact iff_of_true (fun _ _ _ h => by simp at h) fun _ _ _ h => by simp at h
  | append_singleton sets s ih =>
    have hne' : ∀ s' ∈ sets, s'.1 ≠ [] := fun s' hs' => hne s' (List.mem_append_left _ hs')
    rw [List.map_append, List.map_singleton, eachAfter_append_singleton,
      eachAfter_append_singleton, ih hne']
    refine and_congr_right fun h => ?_
    obtain ⟨table, hall, hrep⟩ := represents_setAll hne' h
    rw [← hrep.set_iff (hne s (by simp)) s.2]
    constructor
    · rintro ⟨table₀, table', hall', hset⟩
      obtain rfl : table = table₀ := Option.some.inj (hall.symm.trans hall')
      exact ⟨table', hset⟩
    · rintro ⟨table', hset⟩
      exact ⟨table, table', hall, hset⟩

/-- **When the function table is a finite map**: exactly when every key that is set or
looked up, in the order in which this happens, is searchable among those set before. -/
theorem isFiniteMap_iff {sets : List (Bytes × V)} {k : Bytes} (hne : ∀ s ∈ sets, s.1 ≠ [])
    (hk : k ≠ []) :
    IsFiniteMap sets k ↔ EachAfter Searchable (sets.map Prod.fst ++ [k]) := by
  rw [IsFiniteMap, eachAfter_set_iff hne, eachAfter_append_singleton]
  refine and_congr_right fun h => ?_
  obtain ⟨table, hall, hrep⟩ := represents_setAll hne h
  rw [← hrep.get_iff hk]
  constructor
  · rintro ⟨table', hall', hget⟩
    obtain rfl : table = table' := Option.some.inj (hall.symm.trans hall')
    exact hget
  · exact fun hget => ⟨table, hall, hget⟩

example : hmHash [27] = hmHash [27, 0] := by decide

/-- A key is searchable among keys of which no other one is in its bucket. -/
theorem searchable_of_hash {ks : List Bytes} {k : Bytes}
    (h : ∀ j ∈ ks, hmHash j = hmHash k → j = k) : Searchable ks k := by
  have hsame : ∀ j ∈ ks.filter fun j => hmHash j = hmHash k, j = k := by
    intro j hj
    obtain ⟨hj, hhash⟩ := List.mem_filter.mp hj
    exact h j hj (of_decide_eq_true hhash)
  refine ⟨fun j hj hlt => ?_, fun _ j hj hlt => ?_⟩
  · exact absurd hlt (by rw [hsame j hj]; exact lt_irrefl k)
  · exact absurd hlt (by rw [hsame j hj]; exact lt_irrefl k)

/-- Keys in buckets of their own are set and found without meeting each other. -/
theorem eachAfter_searchable_of_nodup {ks : List Bytes} (h : (ks.map hmHash).Nodup) :
    EachAfter Searchable ks := by
  intro earlier k later hks
  refine searchable_of_hash fun j hj hhash => ?_
  subst hks
  have hmem : ∀ i, i ∈ earlier ∨ i = k → i ∈ earlier ++ k :: later := by
    rintro i (hi | rfl) <;> simp [*]
  exact List.inj_on_of_nodup_map h (hmem j (Or.inl hj)) (hmem k (Or.inr rfl)) hhash

end Hermes
