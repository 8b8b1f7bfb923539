import QuorumChain.Proofs.Peer.Set
import QuorumChain.Proofs.View.Effect

/-! Phase, block, signatures and intent of a view fit together, after every step of deriving the
intent and so whatever the cap on the number of steps. -/

namespace QuorumChain.View

variable {n : ValidatorCount} {v w : View n}

/-- The validators that are asked have not given a signature but could, as far as is known. -/
theorem mem_signersToAsk {id : BlockId} {i : PeerIndex} :
    i ∈ v.signersToAsk id ↔ ∃ j : Fin n.total,
      v.signatures[j] = none ∧ canSign v.own id v.statuses[j] = true ∧ n.indexOf j = i := by
  simp only [signersToAsk, PeerSet.mem_ofList, List.mem_map, List.mem_filter, List.mem_finRange,
    true_and, Bool.and_eq_true, Option.isNone_iff_eq_none, and_assoc]

/-- What has to be true of a view that has an intent. -/
def Supports (v : View n) : Intent → Prop
  | .doNothing => True
  | .buildBlock | .fetchUnfinishedBlock _ => v.own.phase = .waitBlock
  | .fetchBlockAtHeight height => v.own.phase = .waitBlock ∧ height = v.own.height
  | .commitBlock => v.own.phase = .prepared ∧ v.quorum ≤ v.recorded.length
  | .fetchCommitSignature id peers =>
      v.own.phase = .prepared ∧ v.own.block = some id ∧ peers.isEmpty = false ∧
        ∀ i ∈ peers, ∃ j, j ≠ v.me ∧ i = n.indexOf j

/-- There is a block exactly from the phase on in which it is held, its signatures belong to it, and
the intent is one that the phase allows. -/
structure Coherent (v : View n) : Prop where
  waits_iff : v.own.phase = .waitBlock ↔ v.own.block = none
  waiting_slots : v.own.phase = .waitBlock → ∀ i : Fin n.total, v.signatures[i] = none
  own_slot : v.own.phase ≠ .waitBlock → (v.signatures[v.me]).isSome = true
  held_slots : v.own.phase = .haveBlock → ∀ i : Fin n.total, i ≠ v.me → v.signatures[i] = none
  intent_fits : v.Supports v.intent

namespace Coherent

theorem not_waiting (hv : v.Coherent) {id : BlockId} (hid : v.own.block = some id) :
    v.own.phase ≠ .waitBlock := by
  intro hp
  rw [hv.waits_iff.mp hp] at hid
  cases hid

theorem exists_block (hv : v.Coherent) (hp : v.own.phase ≠ .waitBlock) :
    ∃ id, v.own.block = some id := by
  rw [← Option.ne_none_iff_exists']
  intro hnone
  exact hp (hv.waits_iff.mpr hnone)

/-- Only the parts that are named matter. -/
theorem transfer (hv : v.Coherent) (hme : w.me = v.me) (hheight : w.own.height = v.own.height)
    (hphase : w.own.phase = v.own.phase) (hblock : w.own.block = v.own.block)
    (hslots : w.signatures = v.signatures) (hi : w.intent = v.intent) : w.Coherent where
  waits_iff := by rw [hphase, hblock, hv.waits_iff]
  waiting_slots hp := by
    rw [hslots]
    exact hv.waiting_slots (hphase ▸ hp)
  own_slot hp := by
    simp only [hslots, hme]
    exact hv.own_slot (hphase ▸ hp)
  held_slots hp := by
    rw [hslots, hme]
    exact hv.held_slots (hphase ▸ hp)
  intent_fits := by
    have hfits := hv.intent_fits
    have hrecorded : w.recorded = v.recorded := by rw [recorded, recorded, hslots]
    rw [hi]
    cases hv : v.intent with
    | doNothing => trivial
    | buildBlock => simpa only [Supports, hv, hphase] using hfits
    | commitBlock =>
        rw [hv] at hfits
        exact ⟨hphase.trans hfits.1, hrecorded ▸ hfits.2⟩
    | fetchUnfinishedBlock id => simpa only [Supports, hv, hphase] using hfits
    | fetchBlockAtHeight height => simpa only [Supports, hv, hphase, hheight] using hfits
    | fetchCommitSignature id peers => simpa only [Supports, hv, hphase, hblock, hme] using hfits

theorem withIntent (hv : v.Coherent) {i : Intent} (hi : v.Supports i) : (v.withIntent i).Coherent where
  waits_iff := hv.waits_iff
  waiting_slots := hv.waiting_slots
  own_slot := hv.own_slot
  held_slots := hv.held_slots
  intent_fits := by
    cases i <;> exact hi

theorem onHeight (v : View n) (height : Height) (serial : Serial) :
    (v.onHeight height serial).Coherent where
  waits_iff := by simp [Status.start]
  waiting_slots _ := by simp
  own_slot hp := absurd rfl (own_onHeight v height serial ▸ hp)
  held_slots _ := by simp
  intent_fits := trivial

theorem holding (v : View n) (id : BlockId) (signature : CommitSignature) (serial : Serial) :
    (v.holding id signature serial).Coherent where
  waits_iff := by simp
  waiting_slots hp := by simp at hp
  own_slot _ := by simp
  held_slots _ i hi := by
    have hne : (v.me : Nat) ≠ i := fun h => hi (Fin.ext h.symm)
    simp [hne]
  intent_fits := trivial

/-- Nothing is intended for a block that is held. -/
theorem intent_eq (hv : v.Coherent) (hp : v.own.phase = .haveBlock) : v.intent = .doNothing := by
  have hfits := hv.intent_fits
  cases hi : v.intent with
  | doNothing => rfl
  | _ => simp [hi, Supports, hp] at hfits

theorem drop (hv : v.Coherent) (h : v.dropHeldBlock = .ok w) : w.Coherent := by
  rcases dropHeldBlock_eq_ok.mp h with ⟨_, rfl⟩ | ⟨hp, serial, _, rfl⟩
  · exact hv
  · refine ⟨by simp, by simp, by simp, by simp, ?_⟩
    simp only [intent_clearSignatures, intent_setOwn, hv.intent_eq hp]
    trivial

theorem setSlot (hv : v.Coherent) (hp : v.own.phase = .prepared) (i : Fin n.total)
    (s : CommitSignature) :
    ({ v with signatures := n.update v.signatures i (some s) } : View n).Coherent where
  waits_iff := hv.waits_iff
  waiting_slots hw := nomatch hp.symm.trans hw
  own_slot hw := by
    have hslot := hv.own_slot hw
    simp only [getElem_member, ValidatorCount.update_eq, Vector.getElem_set] at hslot ⊢
    split
    · rfl
    · exact hslot
  held_slots hh := nomatch hp.symm.trans hh
  intent_fits := by
    have hfits := hv.intent_fits
    cases hi : v.intent with
    | doNothing => trivial
    | commitBlock =>
        rw [hi] at hfits
        refine ⟨hp, Nat.le_trans hfits.2 (length_recorded_le fun j hj => ?_)⟩
        simp only [getElem_member, ValidatorCount.update_eq, Vector.getElem_set] at hj ⊢
        split
        · rfl
        · exact hj
    | fetchCommitSignature id peers => rwa [hi] at hfits
    | _ => simp [hi, Supports, hp] at hfits

/-- **Every step keeps a view coherent.** -/
theorem move (hv : v.Coherent) (h : Move v w) : w.Coherent := by
  cases h with
  | resync hp hb hi =>
      have hfits := hv.intent_fits
      rw [hi] at hfits
      exact hv.withIntent ⟨hfits.1, rfl⟩
  | fallBehind hp hb hw =>
      refine (hv.drop hw).withIntent ?_
      rcases dropHeldBlock_eq_ok.mp hw with ⟨hh, he⟩ | ⟨hh, serial, _, rfl⟩
      · rw [he]
        cases hphase : v.own.phase with
        | waitBlock => exact ⟨hphase, rfl⟩
        | haveBlock => exact absurd hphase hh
        | prepared => exact absurd hphase hp
      · simp [Supports]
  | rotate hr hq hw hround hserial =>
      exact (hv.drop hw).transfer rfl (by simp) (by simp) (by simp) rfl rfl
  | build hp hm => exact hv.withIntent hp
  | fetch hp hm hid hh => exact hv.withIntent hp
  | rest hp => exact hv.withIntent trivial
  | prepare hp hq hserial =>
      have hblock : v.own.block ≠ none := fun h => by simp [hv.waits_iff.mpr h] at hp
      have hslot := hv.own_slot (by simp [hp])
      refine ⟨by simp [hblock], by simp, fun _ => hslot, by simp, ?_⟩
      simp only [intent_setOwn, hv.intent_eq hp]
      trivial
  | decide hp hq => exact hv.withIntent ⟨hp, hq⟩
  | ask hp hid hne =>
      have hslot := hv.own_slot (by simp [hp])
      refine hv.withIntent ⟨hp, hid, hne, fun i hi => ?_⟩
      obtain ⟨j, hnone, _, rfl⟩ := mem_signersToAsk.mp hi
      refine ⟨j, ?_, rfl⟩
      rintro rfl
      simp [hnone] at hslot

theorem recompute (hv : v.Coherent) (h : v.recompute = .ok w) : w.Coherent :=
  recompute_induction move (fun hv => hv.transfer rfl rfl rfl rfl rfl rfl) hv h

theorem effect {e : ViewEvent} (hv : v.Coherent) (h : Effect v e w) : w.Coherent := by
  cases h with
  | status hpeer hme hnew =>
      refine hv.transfer rfl ?_ ?_ ?_ rfl rfl
      · rw [own_setStatus hme]
      · rw [own_setStatus hme]
      · rw [own_setStatus hme]
  | received hi hserial => exact holding v _ _ _
  | advanced hheight hserial => exact onHeight v _ _
  | committed hb hheight hserial => exact onHeight v _ _
  | built hi hm hserial => exact holding v _ _ _
  | signature hpeer hp hb => exact hv.setSlot hp _ _
  | revolt hserial => exact hv.transfer rfl (by simp) (by simp) (by simp) rfl rfl
  | fastForward hheight hserial => exact onHeight v _ _
  | intentWanted => exact hv

/-- **Every event keeps a view coherent.** -/
theorem handle {e : ViewEvent} {outcome : Outcome} (hv : v.Coherent)
    (h : v.handle e = .ok (outcome, w)) : w.Coherent :=
  handle_induction effect (fun hv _ => hv.withIntent trivial) recompute hv h

/-- A validator that starts is coherent. -/
theorem start {me : PeerIndex} {height : Height} {cap : Nat} {serial : Serial}
    (h : View.start n me height cap serial = .ok v) : v.Coherent := by
  obtain ⟨_, hown, _, hslots, hintent⟩ := start_ok h
  refine ⟨by simp [hown, Status.start], by simp [hslots], ?_, by simp [hslots], ?_⟩
  · simp [hown, Status.start]
  · rw [hintent]
    trivial

end Coherent

end QuorumChain.View
