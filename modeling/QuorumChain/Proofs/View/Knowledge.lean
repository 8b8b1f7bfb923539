import QuorumChain.Proofs.View.Coherence
import QuorumChain.Proofs.View.Continuity

/-! What a view knows of the other validators, if they tell the truth about themselves. A report may be
old when it comes, but what a validator is bound to and which heights it is past stays true. -/

namespace QuorumChain

/-- What the validators have done so far. -/
structure History (n : ValidatorCount) where
  /-- the validator is bound to the block of an identifier at a height -/
  bound : Fin n.total → Height → BlockId → Prop
  /-- the validator is past a height -/
  past : Fin n.total → Height → Prop

namespace History

variable {n : ValidatorCount} {H H' : History n} {j : Fin n.total} {s : Status}

/-- The second history is the first one or a later one. -/
structure Grows (H H' : History n) : Prop where
  bound : ∀ {j h r}, H.bound j h r → H'.bound j h r
  past : ∀ {j h}, H.past j h → H'.past j h

/-- A validator may have said that of itself. -/
structure Tells (H : History n) (j : Fin n.total) (s : Status) : Prop where
  bound : s.phase = .prepared → ∀ r, s.block = some r → H.bound j s.height r
  past : ∀ h, h < s.height → H.past j h

theorem Tells.mono (h : H.Tells j s) (hg : H.Grows H') : H'.Tells j s :=
  ⟨fun hp r hr => hg.bound (h.bound hp r hr), fun k hk => hg.past (h.past k hk)⟩

theorem tells_unknown (H : History n) (j : Fin n.total) : H.Tells j .unknown :=
  ⟨nofun, fun h hlt => absurd hlt (Nat.not_lt_zero h.number)⟩

/-- A view may be told so by the validators themselves. -/
def Backs (H : History n) (v : View n) : ViewEvent → Prop
  | .status i s => ∀ j, n.memberAt? i = some j → H.Tells j s
  | .signature i id _ => ∀ j, n.memberAt? i = some j → v.own.block = some id →
      H.bound j v.own.height id
  | _ => True

end History

namespace View

variable {n : ValidatorCount} {H H' : History n} {v w : View n}

/-- What a view believes of the others, whom it asks and what it got from them is so. -/
structure Informed (H : History n) (v : View n) : Prop where
  statuses : ∀ j : Fin n.total, j ≠ v.me → H.Tells j v.statuses[j]
  asking : ∀ id peers, v.intent = .fetchCommitSignature id peers → ∀ j, n.indexOf j ∈ peers →
    j ≠ v.me → H.past j v.own.height ∨ H.bound j v.own.height id
  signatures : ∀ (j : Fin n.total) (t : CommitSignature), v.signatures[j] = some t → j ≠ v.me →
    ∃ r, v.own.block = some r ∧ H.bound j v.own.height r

namespace Informed

theorem mono (hv : v.Informed H) (hg : H.Grows H') : v.Informed H' where
  statuses j hj := (hv.statuses j hj).mono hg
  asking id peers hi j hj hne := (hv.asking id peers hi j hj hne).imp hg.past hg.bound
  signatures j t ht hne := by
    obtain ⟨r, hr, hbound⟩ := hv.signatures j t ht hne
    exact ⟨r, hr, hg.bound hbound⟩

/-- Who can give a signature as far as is known is bound to the block, or past the height. -/
theorem of_canSign (hv : v.Informed H) {j : Fin n.total} {id : BlockId} (hj : j ≠ v.me)
    (hcan : canSign v.own id v.statuses[j] = true) :
    H.past j v.own.height ∨ H.bound j v.own.height id := by
  have htells := hv.statuses j hj
  simp only [canSign, Bool.or_eq_true, Bool.and_eq_true, decide_eq_true_eq] at hcan
  rcases hcan with hlt | ⟨⟨hheight, hphase⟩, hblock⟩
  · exact .inl (htells.past _ hlt)
  · exact .inr (hheight ▸ htells.bound hphase id hblock)

/-- Deriving the intent keeps what does not depend on the intent, and asks only those that can sign. -/
theorem continues (hv : v.Informed H) (hc : v.Continues w)
    (hi : w.intent = v.intent ∨
      ∀ id peers, w.intent = .fetchCommitSignature id peers → peers = v.signersToAsk id) :
    w.Informed H where
  statuses j hj := by
    rw [hc.me_eq] at hj
    rw [hc.others j hj]
    exact hv.statuses j hj
  asking id peers hw j hj hne := by
    rw [hc.me_eq] at hne
    rw [hc.height_eq]
    rcases hi with hsame | hnew
    · exact hv.asking id peers (hsame ▸ hw) j hj hne
    · rw [hnew id peers hw] at hj
      obtain ⟨j', _, hcan, hindex⟩ := mem_signersToAsk.mp hj
      cases Fin.ext (congrArg PeerIndex.number hindex)
      exact hv.of_canSign hne hcan
  signatures j t ht hne := by
    rw [hc.me_eq] at hne
    rcases hc.retains with ⟨_, _, _, hnone⟩ | ⟨hblock, hslots, _⟩
    · rw [hnone] at ht
      simp at ht
    · rw [hblock, hc.height_eq]
      exact hv.signatures j t (hslots ▸ ht) hne

theorem move (hv : v.Informed H) (hm : Move v w) : w.Informed H := by
  refine hv.continues (.move hm) ?_
  cases hm with
  | resync _ _ _ => exact .inr nofun
  | fallBehind _ _ _ => exact .inr nofun
  | rotate _ _ hw _ _ =>
      refine .inl ?_
      rcases dropHeldBlock_eq_ok.mp hw with ⟨_, rfl⟩ | ⟨_, _, _, rfl⟩
      · rfl
      · rfl
  | build _ _ => exact .inr nofun
  | fetch _ _ _ _ => exact .inr nofun
  | rest _ => exact .inr nofun
  | prepare _ _ _ => exact .inl rfl
  | decide _ _ => exact .inr nofun
  | ask _ _ _ =>
      refine .inr fun id peers heq => ?_
      cases heq
      rfl

theorem recompute (hv : v.Informed H) (h : v.recompute = .ok w) : w.Informed H :=
  recompute_induction (P := Informed H) (fun hv hm => hv.move hm)
    (fun hv => ⟨hv.statuses, hv.asking, hv.signatures⟩) hv h

theorem onHeight (hv : v.Informed H) (height : Height) (serial : Serial) :
    (v.onHeight height serial).Informed H where
  statuses j hj := by
    rw [v.statuses_onHeight height serial hj]
    exact hv.statuses j hj
  asking _ _ hi := nomatch hi
  signatures j t ht := by simp at ht

theorem holding (hv : v.Informed H) (id : BlockId) (signature : CommitSignature) (serial : Serial) :
    (v.holding id signature serial).Informed H where
  statuses j hj := by
    rw [v.statuses_holding id signature serial hj]
    exact hv.statuses j hj
  asking _ _ hi := nomatch hi
  signatures j t ht hne := by
    have hme : (v.me : Nat) ≠ j := fun he => hne (Fin.ext he.symm)
    simp [hme] at ht

theorem effect {e : ViewEvent} (hv : v.Informed H) (he : H.Backs v e) (h : Effect v e w) :
    w.Informed H := by
  cases h with
  | @status peer i s hpeer hme hnew =>
      have hown : ({ v with statuses := n.update v.statuses i s } : View n).own = v.own := own_setStatus hme
      refine ⟨fun j hj => ?_, ?_, ?_⟩
      · by_cases hij : i = j
        · subst hij
          simpa using he i hpeer
        · have hne : (i : Nat) ≠ j := fun h => hij (Fin.ext h)
          simpa [hne] using hv.statuses j hj
      · rw [hown]
        exact hv.asking
      · rw [hown]
        exact hv.signatures
  | @signature peer i id t hpeer hp hb =>
      refine ⟨hv.statuses, hv.asking, fun j t ht hne => ?_⟩
      by_cases hij : i = j
      · subst hij
        exact ⟨id, hb, he i hpeer hb⟩
      · have hne' : (i : Nat) ≠ j := fun h => hij (Fin.ext h)
        refine hv.signatures j t ?_ hne
        simpa [hne'] using ht
  | revolt hserial =>
      refine ⟨fun j hj => ?_, ?_, ?_⟩
      · rw [v.statuses_setOwn _ hj]
        exact hv.statuses j hj
      · simpa using hv.asking
      · simpa using hv.signatures
  | intentWanted => exact hv
  | received _ _ => exact hv.holding _ _ _
  | built _ _ _ => exact hv.holding _ _ _
  | advanced _ _ => exact hv.onHeight _ _
  | committed _ _ _ => exact hv.onHeight _ _
  | fastForward _ _ => exact hv.onHeight _ _

/-- A view is still told the same after deriving the intent. -/
theorem backs_continues {e : ViewEvent} (he : H.Backs v e) (hc : v.Continues w) : H.Backs w e := by
  cases e with
  | signature i id t =>
      intro j hj hid
      rw [hc.height_eq]
      exact he j hj (hc.block_eq hid)
  | status i s => exact he
  | received id signature => trivial
  | advanced height => trivial
  | committed id => trivial
  | built id signature => trivial
  | revolt => trivial
  | fastForward committed => trivial
  | intentWanted => trivial

/-- **A view that is told the truth knows the truth.** -/
theorem handle {e : ViewEvent} {outcome : Outcome} (hv : v.Informed H) (he : H.Backs v e)
    (h : v.handle e = .ok (outcome, w)) : w.Informed H := by
  refine (handle_induction (P := fun u => u.Informed H ∧ H.Backs u e) (fun hu heffect => ?_)
    (fun {u} hu _ => ?_) (fun hu hrec => ?_) ⟨hv, he⟩ h).1
  · refine ⟨hu.1.effect hu.2 heffect, ?_⟩
    cases heffect with
    | signature _ _ _ => exact hu.2
    | status _ _ _ => exact hu.2
    | received _ _ => trivial
    | advanced _ _ => trivial
    | committed _ _ _ => trivial
    | built _ _ _ => trivial
    | revolt _ => trivial
    | fastForward _ _ => trivial
    | intentWanted => trivial
  · have hc := Continues.withIntent u .doNothing
    exact ⟨hu.1.continues hc (.inr nofun), backs_continues hu.2 hc⟩
  · exact ⟨hu.1.recompute hrec, backs_continues hu.2 (.recompute hrec)⟩

theorem start {me : PeerIndex} {height : Height} {cap : Nat} {serial : Serial} (H : History n)
    (h : View.start n me height cap serial = .ok v) : v.Informed H := by
  obtain ⟨_, _, hothers, hslots, hi⟩ := start_ok h
  refine ⟨fun j hj => ?_, fun id peers heq => (nomatch hi.symm.trans heq), fun j t ht => ?_⟩
  · rw [hothers j hj]
    exact H.tells_unknown j
  · rw [hslots] at ht
    simp at ht

end Informed

end View

end QuorumChain
