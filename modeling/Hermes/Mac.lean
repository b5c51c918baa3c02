import Hermes.Instance

/-!
# What a mac binds

The mac of a block is the HMAC of its data and its meta, fed to it one after the other
(`hm_mac_create`). As the HMAC is of a stream of bytes (`Hermes.Themis.Streams`), it binds
their concatenation, and where the data ends is not bound: two versions whose concatenations
agree have the same mac (`Hermes.Env.mac_binds_iff`), and the data store takes the mac of one
for that of the other (`Hermes.Env.update_accepted_iff`).
-/

namespace Hermes

open Interleave

/-- The HMAC is one of the stream of bytes it is fed, however it is cut into chunks. -/
def Themis.Streams (T : Themis) : Prop :=
  ∀ {k xs ys}, xs.flatten = ys.flatten → T.hmac k xs = T.hmac k ys

namespace Env

variable (E : Env)

/-- `hm_mac_create` gives the mac `mac` for the data and the meta, under a key. -/
def MacOf (key data metadata mac : Bytes) : Prop :=
  ∀ w, (hmMacCreate key data metadata).run E.handle w = (.ok (.ok mac), w)

/-- Under a key, the macs of two versions agree only if the versions do. -/
def MacBinds (key data₁ metadata₁ data₂ metadata₂ : Bytes) : Prop :=
  ∀ mac, E.MacOf key data₁ metadata₁ mac → E.MacOf key data₂ metadata₂ mac →
    data₁ = data₂ ∧ metadata₁ = metadata₂

variable {E} {key data metadata mac data₁ metadata₁ data₂ metadata₂ : Bytes}

/-- What `hm_mac_create` computes. -/
theorem macOf_iff (hkey : key ≠ []) (hdata : data ≠ []) :
    E.MacOf key data metadata mac ↔ mac = E.themis.hmac key [data, metadata] := by
  have hrun : ∀ w : World, (hmMacCreate key data metadata).run E.handle w =
      (.ok (.ok (E.themis.hmac key [data, metadata])), w) := by
    intro w
    rw [hmMacCreate, if_neg (by simp [hkey, hdata])]
    rfl
  constructor
  · intro h
    have heq := (h (World.empty fun _ => ⟨List.replicate hmTokenLen 0, rfl⟩)).symm.trans (hrun _)
    cases heq
    rfl
  · rintro rfl
    exact hrun

section Streams

variable (hstream : E.themis.Streams)

include hstream

/-- The macs of two versions agree when their concatenations do. -/
theorem hmac_pair_eq_iff : E.themis.hmac key [data₁, metadata₁] =
    E.themis.hmac key [data₂, metadata₂] ↔ data₁ ++ metadata₁ = data₂ ++ metadata₂ := by
  have hflat : ∀ d mt : Bytes, [d, mt].flatten = d ++ mt := fun d mt => by simp
  rw [← hflat, ← hflat]
  exact ⟨fun h => (E.themis.hmac_inj h).2, fun h => hstream h⟩

/-- **What a mac binds**: the macs of two versions tell them apart exactly if their data is
of the same length or their concatenations are different. -/
theorem mac_binds_iff (hkey : key ≠ []) (hd₁ : data₁ ≠ []) (hd₂ : data₂ ≠ []) :
    E.MacBinds key data₁ metadata₁ data₂ metadata₂ ↔
      data₁.length = data₂.length ∨ data₁ ++ metadata₁ ≠ data₂ ++ metadata₂ := by
  simp only [MacBinds, macOf_iff hkey hd₁, macOf_iff hkey hd₂, forall_eq,
    hmac_pair_eq_iff hstream]
  constructor
  · intro h
    by_cases hcat : data₁ ++ metadata₁ = data₂ ++ metadata₂
    · exact Or.inl (congrArg List.length (h hcat).1)
    · exact Or.inr hcat
  · rintro (hlen | hcat) h
    · exact List.append_inj h hlen
    · exact absurd h hcat

/-- **The data store takes the mac of one version for that of another** exactly if their
concatenations agree: it accepts an update of the one by a client that has seen the other. -/
theorem update_accepted_iff {w : World} {b blk blk' metadata' mac' : Bytes}
    (hstored : w.stored b = some ⟨blk, metadata₁, E.themis.hmac key [data₁, metadata₁]⟩)
    (hb : b ≠ []) (hblk : blk' ≠ []) (hmeta : metadata' ≠ []) (hmac : mac' ≠ []) :
    (E.handle w (.ds (.updateBlock b blk' metadata' mac'
        (E.themis.hmac key [data₂, metadata₂])))).1 = .ok () ↔
      data₁ ++ metadata₁ = data₂ ++ metadata₂ := by
  have hne : ¬(b = [] ∨ blk' = [] ∨ metadata' = [] ∨ mac' = [] ∨
      E.themis.hmac key [data₂, metadata₂] = []) := by
    simp [hb, hblk, hmeta, hmac, E.themis.hmac_ne_nil]
  have hpair : E.themis.hmac key [data₁, metadata₁] = E.themis.hmac key [data₂, metadata₂] ↔
      data₁ ++ metadata₁ = data₂ ++ metadata₂ := hmac_pair_eq_iff hstream
  rw [handle_updateBlock, if_neg hne, hstored, ← hpair]
  by_cases h : E.themis.hmac key [data₁, metadata₁] = E.themis.hmac key [data₂, metadata₂]
  · exact iff_of_true (congrArg Prod.fst (if_pos h)) h
  · refine iff_of_false (fun hc => ?_) h
    rw [congrArg Prod.fst (if_neg h)] at hc
    cases hc

end Streams

end Env

/-! ### A mac of two versions -/

/-- Ideal cryptography whose HMAC is one of a stream. -/
def streamThemis : Themis :=
  { idealThemis with
    hmac k xs := frame k ++ xs.flatten
    hmac_inj h := frame_append_inj h
    hmac_ne_nil k xs := by cases k <;> simp [frame] }

theorem streams_streamThemis : streamThemis.Streams := fun {k _ _} h => congrArg (frame k ++ ·) h

/-- The environment of the demonstrations, with this HMAC. -/
def streamEnv : Env := { demoEnv with themis := streamThemis }

/-- **The data `[1, 2]` with the meta `[3]` has the mac of the data `[1]` with the meta
`[2, 3]`.** -/
theorem Env.not_macBinds : ¬∀ (E : Env) (key data₁ metadata₁ data₂ metadata₂ : Bytes),
    E.themis.Streams → key ≠ [] → data₁ ≠ [] → metadata₁ ≠ [] → data₂ ≠ [] → metadata₂ ≠ [] →
      E.MacBinds key data₁ metadata₁ data₂ metadata₂ := by
  intro h
  have hsame : streamEnv.themis.hmac [7] [[1, 2], [3]] = streamEnv.themis.hmac [7] [[1], [2, 3]] :=
    streams_streamThemis rfl
  have hbinds := h streamEnv [7] [1, 2] [3] [1] [2, 3] streams_streamThemis (by decide) (by decide)
    (by decide) (by decide) (by decide) _ ((macOf_iff (by decide) (by decide)).mpr rfl)
    ((macOf_iff (by decide) (by decide)).mpr hsame)
  cases hbinds.1

/-- Data of the same length is told apart. -/
theorem Env.mac_binds_iff_same_length :
    streamEnv.MacBinds [7] [1, 2] [3] [1, 4] [3] ↔
      ([1, 2] : Bytes).length = ([1, 4] : Bytes).length ∨
        ([1, 2] ++ [3] : Bytes) ≠ [1, 4] ++ [3] :=
  Env.mac_binds_iff streams_streamThemis (by decide) (by decide) (by decide)

end Hermes
