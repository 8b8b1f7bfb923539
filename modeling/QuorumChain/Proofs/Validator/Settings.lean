import Mathlib.Data.List.Nodup
import QuorumChain.Proofs.Validator.Run

/-! What a validator never changes: its position, the keys of all validators, and the keys that its
ledger goes by. -/

namespace QuorumChain

namespace Core

variable {n : ValidatorCount} {c c' : Core n} {e : ValidatorEvent}

/-- The second validator has the settings of the first one. -/
structure SameSettings (c c' : Core n) : Prop where
  me_eq : c'.view.me = c.view.me
  keys_eq : c'.keys = c.keys
  key_eq : c'.database.engine.key = c.database.engine.key
  peers_eq : c'.database.engine.peers = c.database.engine.peers

namespace SameSettings

theorem refl (c : Core n) : c.SameSettings c := ⟨rfl, rfl, rfl, rfl⟩

theorem trans {c'' : Core n} (h : c.SameSettings c') (h' : c'.SameSettings c'') :
    c.SameSettings c'' :=
  ⟨h'.me_eq.trans h.me_eq, h'.keys_eq.trans h.keys_eq, h'.key_eq.trans h.key_eq,
    h'.peers_eq.trans h.peers_eq⟩

end SameSettings

variable [CryptoSuite]

/-- No two validators have the same key, and the ledger goes by the keys of the validators and signs
with the validator's own. -/
structure Equipped (c : Core n) : Prop where
  distinct : c.keys.toList.Nodup
  peers_eq : c.database.engine.peers = c.keys.toList
  key_eq : c.database.engine.key.publicKey = c.keys[c.view.me]

/-- A key tells whose it is. -/
theorem Equipped.keys_injective (hc : c.Equipped) {i j : Fin n.total} (h : c.keys[i] = c.keys[j]) :
    i = j := by
  have hlist : c.keys.toList.get (i.cast (by simp)) = c.keys.toList.get (j.cast (by simp)) := h
  exact Fin.ext (Fin.mk.inj (List.nodup_iff_injective_get.mp hc.distinct hlist))

namespace SameSettings

theorem equipped (h : c.SameSettings c') (hc : c.Equipped) : c'.Equipped where
  distinct := h.keys_eq ▸ hc.distinct
  peers_eq := by rw [h.peers_eq, h.keys_eq, hc.peers_eq]
  key_eq := by
    simp only [h.key_eq, h.keys_eq, h.me_eq]
    exact hc.key_eq

theorem step (hs : Step e c c') : c.SameSettings c' := by
  cases hs with
  | view _ hview => exact ⟨View.handle_me hview, rfl, rfl, rfl⟩
  | jump _ _ _ hview => exact ⟨View.handle_me hview, rfl, rfl, rfl⟩
  | hear _ _ _ _ hvalid hview =>
      rcases Database.verifySignature_cases hvalid with ⟨_, rfl⟩ | ⟨_, _, _, _, _, rfl⟩
      · exact ⟨View.handle_me hview, rfl, rfl, rfl⟩
      · exact ⟨View.handle_me hview, rfl, rfl, rfl⟩
  | issue _ _ => exact ⟨rfl, rfl, rfl, rfl⟩
  | run _ _ hd =>
      obtain ⟨hkey, hpeers⟩ := (Database.perform_cases hd).settings_eq
      exact ⟨rfl, rfl, hkey, hpeers⟩
  | take _ _ htakes =>
      refine ⟨?_, rfl, rfl, rfl⟩
      cases htakes with
      | failed _ => rfl
      | loaded hview => exact View.handle_me hview
      | built hview => exact View.handle_me hview
      | added _ hview => exact View.handle_me hview
      | committed hview => exact View.handle_me hview

theorem halt (c : Core n) : c.SameSettings c.halt := by
  obtain ⟨hkey, hpeers⟩ := (Database.stop_fails c.database).settings_eq
  exact ⟨rfl, rfl, hkey, hpeers⟩

end SameSettings

end Core

namespace Validator

open QuorumChain.Core

variable {n : ValidatorCount} [CryptoSuite]

theorem sameSettings_handle (v : Node n) (e : ValidatorEvent) :
    v.core.SameSettings (v.handle e).2.core :=
  handle_induction (P := v.core.SameSettings) (fun hc _ hs => hc.trans (.step hs))
    (fun hc => hc.trans (.halt _)) (.refl _)

end Validator

end QuorumChain
