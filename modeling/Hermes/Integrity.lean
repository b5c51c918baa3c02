import Hermes.Confidentiality

/-!
# What an attacker can make others believe

The attacker of `Hermes.Env.watched` is the data store, reads all requests and has corrupted
some users. It may answer the reading of a block with any cell that it can derive: an old
version, a version of another block, or a cell that it has sealed itself under any key that it
or a corrupted user has. `Hermes.Env.read_block_authentic` excludes the last by assumption
(`Hermes.IdealCrypto`). Here it is shown: who is not let read a block cannot make a cell that
opens for those who are (`Hermes.Env.unforgeable`).

So a corrupted user that is let write a block, and not let read it, cannot change what is read:
to write means to have the data store take a cell, and the cell needs the read key.
-/

namespace Hermes

open Interleave

namespace Env

variable {E : Env}

/-- **Integrity.** An attacker answers for the data store, reads all requests to all stores and has
corrupted some users. If none of them creates the block, and none is let read it, then a reading
of the block that reports success returns a content that was written to this block: the data and
the meta were passed together to a call that created it, or to an update of it by a user whose
write token the key store gave. -/
theorem unforgeable {A : Attack} {rands : ℕ → HmToken} {P : Clients} (hA : E.Separates rands A)
    (hrun : (E.watched A.initial A.Allows).Runs ⟨World.empty rands, []⟩ P) (hfresh : FreshKeys P)
    {user : User} {h : Hist} {res : Result}
    (ht : ⟨⟨user, .readBlock A.block⟩, h, .ret res⟩ ∈ P.threads) (hres : res.status = hmSuccess) :
    ∃ d mt, res.content = some (d, mt) ∧ Written P A.block d mt := by
  have hhostile := hostile_of_watched hrun
  have hP : E.Fair rands A P :=
    ⟨hA, hfresh, honest_of_hostile hhostile, (rands_of_runs hhostile).2⟩
  have hall := allHarmless_of_runs hP hrun fun t ht => ⟨t, ht, rfl, List.suffix_refl _⟩
  have hhonest := hP.honest _ ht
  -- the content that is returned was loaded, with a key that the key store gave
  obtain ⟨k, d, mt, hcontent, hl⟩ := hhonest.asks hres
  exact ⟨d, mt, hcontent,
    (harmless_loaded hP hall ht hhonest (List.suffix_refl _) hl).2.2 rfl⟩

end Env

/-- The user `[12]` is given an old content, since the data store has forgotten the update, but one
that the owner has written. -/
theorem Env.unforgeable_guarded :
    ∃ d mt, some (([100, 1], [21]) : Bytes × Bytes) = some (d, mt) ∧
      Env.Written guarded [9] d mt := by
  have hread : guarded.threads[7]?.any (fun t => t.call = ⟨reader, .readBlock [9]⟩ ∧
      t.prog.value? = some ⟨hmSuccess, none, some ([100, 1], [21])⟩) = true := by
    decide +kernel
  obtain ⟨⟨c, h, p⟩, ht, hr⟩ := (Option.any_eq_true _ _).mp hread
  obtain ⟨rfl, hp⟩ : c = _ ∧ p.value? = some _ := by simpa using hr
  obtain rfl := Prog.value?_eq_some.mp hp
  exact Env.unforgeable separates_demoAttack watched_guarded freshKeys_guarded
    (List.mem_of_getElem? ht) rfl

end Hermes
