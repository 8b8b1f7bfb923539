import QuorumChain.Proofs.View.Run

/-! The intent that is due. An intent is derived in steps that look at the intent before, but no more
than two of them change anything, and then the intent depends on nothing but the statuses and the
signatures that there are. -/

namespace QuorumChain

section Definition

variable {n : ValidatorCount} (own : Status) (statuses : Vector Status n.total)
  (signatures : Vector (Option CommitSignature) n.total)

/-- Too few validators are at the height of a validator, and some are higher. -/
def LeftBehind : Prop :=
  statuses.countP (fun s => s.height = own.height) < n.threshold ∧
    ∃ i : Fin n.total, own.height < statuses[i].height

instance : Decidable (LeftBehind own statuses) := inferInstanceAs (Decidable (_ ∧ _))

/-- Without a block, it is built, or asked for at the validator whose turn it is. -/
def waitingIntent (me : Fin n.total) : Intent :=
  let turn : Fin n.total := ⟨(own.height.number + own.round.number) % n.total, Nat.mod_lt _ me.pos⟩
  if turn = me then .buildBlock
  else
    match statuses[turn].block with
    | some id => if statuses[turn].height = own.height then .fetchUnfinishedBlock id else .doNothing
    | none => .doNothing

/-- The validators without a signature that can give one over a block: they are past its height, or are
prepared to commit it. -/
def signersLeft (id : BlockId) : List (Fin n.total) :=
  (List.finRange n.total).filter fun i =>
    signatures[i] = none ∧ (own.height < statuses[i].height ∨
      (statuses[i].height = own.height ∧ statuses[i].phase = .prepared ∧ statuses[i].block = some id))

/-- A prepared block is committed with enough signatures, and until then more are asked for. -/
def preparedIntent : Intent :=
  if n.threshold ≤ signatures.countP Option.isSome then .commitBlock
  else
    match own.block with
    | some id =>
      if signersLeft own statuses signatures id = [] then .doNothing
      else .fetchCommitSignature id (.ofList ((signersLeft own statuses signatures id).map n.indexOf))
    | none => .doNothing

/-- The intent of a validator, by what it believes of the validators and which signatures it has. -/
def dueIntent (me : Fin n.total) : Intent :=
  if statuses[me].phase ≠ .prepared ∧ LeftBehind statuses[me] statuses then
    .fetchBlockAtHeight statuses[me].height
  else
    match statuses[me].phase with
    | .waitBlock => waitingIntent statuses[me] statuses me
    | .haveBlock => .doNothing
    | .prepared => preparedIntent statuses[me] statuses signatures

end Definition

namespace View

variable {n : ValidatorCount} {u v w : View n}

/-- The intent that is due in a view. -/
def due (v : View n) : Intent := dueIntent v.statuses v.signatures v.me

@[simp] theorem due_withIntent (v : View n) (i : Intent) : (v.withIntent i).due = v.due := rfl

theorem isBehind_iff : v.isBehind = true ↔ LeftBehind v.own v.statuses := by
  have hany : 0 < v.count (fun s => v.own.height < s.height) ↔
      ∃ i : Fin n.total, v.own.height < v.statuses[i].height := by
    rw [count, Vector.countP_pos_iff]
    constructor
    · rintro ⟨s, hs, hlt⟩
      obtain ⟨i, hi, rfl⟩ := Vector.mem_iff_getElem.mp hs
      exact ⟨⟨i, hi⟩, of_decide_eq_true hlt⟩
    · rintro ⟨i, hlt⟩
      exact ⟨_, Vector.getElem_mem i.isLt, decide_eq_true hlt⟩
  rw [isBehind, Bool.and_eq_true, decide_eq_true_eq, decide_eq_true_eq, hany]
  rfl

theorem due_behind (hp : v.own.phase ≠ .prepared) (hb : v.isBehind = true) :
    v.due = .fetchBlockAtHeight v.own.height :=
  if_pos ⟨hp, isBehind_iff.mp hb⟩

theorem due_present (h : v.own.phase = .prepared ∨ v.isBehind = false) :
    v.due = match v.own.phase with
      | .waitBlock => waitingIntent v.own v.statuses v.me
      | .haveBlock => .doNothing
      | .prepared => preparedIntent v.own v.statuses v.signatures := by
  refine if_neg ?_
  rintro ⟨hp, hb⟩
  rcases h with h | h
  · exact hp h
  · rw [isBehind_iff.mpr hb] at h
    cases h

theorem awaitBlock_eq (v : View n) :
    v.awaitBlock = v.changeIntent? (waitingIntent v.own v.statuses v.me) := by
  have hturn : (⟨(v.own.height.number + v.own.round.number) % n.total, Nat.mod_lt _ v.me.pos⟩ :
      Fin n.total) = v.primary := rfl
  simp only [awaitBlock, waitingIntent, isPrimary, hturn, decide_eq_true_eq]
  by_cases hm : v.primary = v.me
  · rw [if_pos hm, if_pos hm]
  · rw [if_neg hm, if_neg hm]
    cases v.statuses[v.primary].block with
    | none => rfl
    | some id => exact (apply_ite v.changeIntent? _ _ _).symm

theorem signersToAsk_eq (v : View n) (id : BlockId) :
    v.signersToAsk id = .ofList ((signersLeft v.own v.statuses v.signatures id).map n.indexOf) := by
  have hfilter : (List.finRange n.total).filter (fun i =>
      v.signatures[i].isNone && canSign v.own id v.statuses[i]) =
        signersLeft v.own v.statuses v.signatures id := by
    apply List.filter_congr
    intro i _
    rw [Bool.eq_iff_iff]
    simp [canSign, and_assoc]
  rw [signersToAsk, hfilter]

theorem mem_signersLeft {own : Status} {statuses : Vector Status n.total}
    {signatures : Vector (Option CommitSignature) n.total} {id : BlockId} {i : Fin n.total} :
    i ∈ signersLeft own statuses signatures id ↔ signatures[i] = none ∧
      (own.height < statuses[i].height ∨ (statuses[i].height = own.height ∧
        statuses[i].phase = .prepared ∧ statuses[i].block = some id)) := by
  rw [signersLeft, List.mem_filter, decide_eq_true_eq]
  exact and_iff_right (List.mem_finRange i)

theorem preparedIntent_asks {own : Status} {statuses : Vector Status n.total}
    {signatures : Vector (Option CommitSignature) n.total} {id : BlockId} {peers : PeerSet}
    (h : preparedIntent own statuses signatures = .fetchCommitSignature id peers) :
    peers = .ofList ((signersLeft own statuses signatures id).map n.indexOf) := by
  unfold preparedIntent at h
  split at h
  · cases h
  · split at h
    · split at h
      · cases h
      · cases h
        rfl
    · cases h

theorem collect_eq (hi : v.intent ≠ .commitBlock) :
    v.collect = v.changeIntent? (preparedIntent v.own v.statuses v.signatures) := by
  unfold collect preparedIntent
  rw [if_neg hi, length_recorded]
  by_cases hq : n.threshold ≤ v.signatures.countP Option.isSome
  · rw [if_pos hq]
    show (if n.threshold ≤ _ then _ else _) = _
    rw [if_pos hq, changeIntent?, if_neg hi]
  · rw [if_neg hq]
    show (if n.threshold ≤ _ then _ else _) = _
    rw [if_neg hq]
    cases hid : v.own.block with
    | none => rfl
    | some id =>
        simp only [signersToAsk_eq, PeerSet.isEmpty_ofList, List.map_eq_nil_iff]
        exact (apply_ite v.changeIntent? _ _ _).symm

/-- What a view shows where an intent is due. -/
def Warrants (v : View n) : Intent → Prop
  | .doNothing => True
  | .buildBlock => v.primary = v.me
  | .commitBlock => n.threshold ≤ v.signatures.countP Option.isSome
  | .fetchUnfinishedBlock id => v.primary ≠ v.me ∧ v.statuses[v.primary].block = some id ∧
      v.statuses[v.primary].height = v.own.height
  | .fetchBlockAtHeight height => height = v.own.height ∧ LeftBehind v.own v.statuses
  | .fetchCommitSignature id peers =>
      peers = .ofList ((signersLeft v.own v.statuses v.signatures id).map n.indexOf)

theorem warrants_due (v : View n) : v.Warrants v.due := by
  unfold due dueIntent
  split
  next hbehind => exact ⟨rfl, hbehind.2⟩
  next =>
    split
    · unfold waitingIntent
      dsimp only
      split
      next hturn => exact hturn
      next hturn =>
        split
        next id hid =>
          split
          next hheight => exact ⟨hturn, hid, hheight⟩
          next => trivial
        next => trivial
    · trivial
    · unfold preparedIntent
      split
      next hmany => exact hmany
      next =>
        split
        next id hid =>
          split
          next => trivial
          next => exact rfl
        next => trivial

/-- A view in which neither the heights nor the rounds of the others ask for a change. -/
structure Calm (v : View n) : Prop where
  present : v.own.phase = .prepared ∨ v.isBehind = false
  stays : v.own.revolting = true → v.count (supportsRevolt v.own) < v.quorum

/-- A calm view whose block is not waiting to be prepared, so that only the intent may change. -/
structure Ready (v : View n) : Prop extends Calm v where
  not_holding : v.own.phase ≠ .haveBlock

theorem catchUp_eq (h : v.isBehind = false) : v.catchUp = .ok .undecided := by
  unfold catchUp
  rw [h]
  rfl

theorem endRound_eq (h : v.count (supportsRevolt v.own) < v.quorum) : v.endRound = .ok .undecided := by
  unfold endRound
  rw [if_pos h]
  rfl

/-- A step of a calm view depends on its phase. -/
theorem Calm.step_eq (h : v.Calm) : v.step = v.proceed := by
  have hfirst : (if v.own.phase = .prepared then pure .undecided else v.catchUp) =
      (.ok .undecided : Change n (Stage (View n))) := by
    by_cases hp : v.own.phase = .prepared
    · exact if_pos hp
    · rw [if_neg hp]
      exact catchUp_eq (h.present.resolve_left hp)
  have hsecond : (if v.own.revolting then v.endRound else pure .undecided) =
      (.ok .undecided : Change n (Stage (View n))) := by
    by_cases hr : v.own.revolting = true
    · rw [if_pos hr]
      exact endRound_eq (h.stays hr)
    · exact if_neg hr
  unfold step
  simp only [hfirst, hsecond]
  rfl

namespace Ready

theorem withIntent (h : v.Ready) (i : Intent) : (v.withIntent i).Ready :=
  ⟨⟨h.present, h.stays⟩, h.not_holding⟩

/-- Only the intent changes, to the one that is due; and it does not change from an intent to commit. -/
theorem step_eq (h : v.Ready) : v.step =
    .ok (if v.own.phase = .prepared ∧ v.intent = .commitBlock then none else v.changeIntent? v.due) := by
  rw [h.toCalm.step_eq, due_present h.present]
  unfold proceed
  cases hp : v.own.phase with
  | waitBlock => simp [awaitBlock_eq]
  | haveBlock => exact absurd hp h.not_holding
  | prepared =>
      by_cases hi : v.intent = .commitBlock
      · simp [hi, collect]
      · simp [hi, collect_eq]

/-- After a step of a ready view there is nothing left to change. -/
theorem settles (h : v.Ready) (hw : v.step = .ok (some w)) : w.step = .ok none := by
  rw [h.step_eq] at hw
  split at hw
  · cases hw
  · obtain rfl := changeIntent?_eq_some (Except.ok.inj hw)
    rw [(h.withIntent _).step_eq, due_withIntent]
    simp [changeIntent?]

end Ready

/-- A status of the same height leaves a view behind, or not, as it was. -/
theorem isBehind_setOwn {s : Status} (h : s.height = v.own.height) :
    (v.setOwn s).isBehind = v.isBehind := by
  unfold isBehind
  rw [own_setOwn, count_setOwn, count_setOwn, h]
  · rfl
  · rw [h]
  · rw [h]

/-- What giving up a block that is held does not change. -/
theorem dropHeldBlock_keeps (h : v.dropHeldBlock = .ok w) :
    w.own.height = v.own.height ∧ w.isBehind = v.isBehind ∧ w.own.phase ≠ .haveBlock ∧
      (w.own.phase = .prepared ↔ v.own.phase = .prepared) := by
  rcases dropHeldBlock_eq_ok.mp h with ⟨hp, rfl⟩ | ⟨hp, serial, _, rfl⟩
  · exact ⟨rfl, rfl, hp, Iff.rfl⟩
  · exact ⟨by simp, v.isBehind_setOwn rfl, by simp, by simp [hp]⟩

theorem behind_settled (hp : v.own.phase ≠ .prepared) (hb : v.isBehind = true)
    (hi : v.intent = .fetchBlockAtHeight v.own.height) : v.step = .ok none := by
  have hcatch : v.catchUp = .ok .settled := by
    unfold catchUp
    simp [hb, hi]
    rfl
  unfold step
  rw [if_neg hp, hcatch]
  rfl

/-- Catching up changes nothing that it has changed before. -/
theorem catchUp_cases {stage : Stage (View n)} (hp : v.own.phase ≠ .prepared)
    (h : v.catchUp = .ok stage) :
    (stage = .undecided ∧ v.isBehind = false) ∨
      (stage = .settled ∧ v.isBehind = true ∧ v.intent = .fetchBlockAtHeight v.own.height) ∨
      ∃ w, stage = .changed w ∧ w.step = .ok none := by
  cases hb : v.isBehind with
  | false =>
      rw [catchUp_eq hb] at h
      exact .inl ⟨(Except.ok.inj h).symm, rfl⟩
  | true =>
      right
      unfold catchUp at h
      simp only [hb, Bool.not_true, Bool.false_eq_true, if_false] at h
      split at h
      · split at h
        next hi => exact .inl ⟨(Except.ok.inj h).symm, rfl, hi⟩
        next => exact .inr ⟨_, (Except.ok.inj h).symm, behind_settled hp hb rfl⟩
      · obtain ⟨u, hu, h⟩ := bind_eq_ok.mp h
        obtain ⟨hheight, hbehind, _, hprepared⟩ := dropHeldBlock_keeps hu
        refine .inr ⟨_, (Except.ok.inj h).symm,
          behind_settled (mt hprepared.mp hp) (hbehind.trans hb) ?_⟩
        rw [intent_withIntent, own_withIntent, hheight]

/-- After the end of a round at most the intent is left to change. -/
theorem endRound_cases {stage : Stage (View n)}
    (hpresent : v.own.phase = .prepared ∨ v.isBehind = false) (h : v.endRound = .ok stage) :
    (stage = .undecided ∧ v.count (supportsRevolt v.own) < v.quorum) ∨
      ∃ w, stage = .changed w ∧ w.Ready := by
  unfold endRound at h
  split at h
  next hq => exact .inl ⟨(Except.ok.inj h).symm, hq⟩
  next =>
    simp only [bind_eq_ok, nextRound_eq_ok, bump_eq_ok, own_setOwn, setOwn_setOwn, pure_eq_ok] at h
    obtain ⟨u, hu, _, ⟨round, hround, rfl⟩, _, ⟨serial, hserial, rfl⟩, rfl⟩ := h
    obtain ⟨hheight, hbehind, hholding, hprepared⟩ := dropHeldBlock_keeps hu
    refine .inr ⟨_, rfl, ?_⟩
    rw [own_setOwn, setOwn_setOwn]
    refine ⟨⟨?_, by simp⟩, by simpa using hholding⟩
    rw [own_setOwn]
    rcases hpresent with hp | hb
    · exact .inl (hprepared.mpr hp)
    · right
      rw [isBehind_setOwn, hbehind, hb]
      rfl

theorem Calm.prepare_ready (h : v.Calm) (hw : v.prepare = .ok (some w)) : w.Ready := by
  unfold View.prepare at hw
  split at hw
  · cases hw
  · simp only [bind_eq_ok, bump_eq_ok, own_setOwn, setOwn_setOwn, pure_eq_ok, Option.some.injEq] at hw
    obtain ⟨_, ⟨serial, _, rfl⟩, rfl⟩ := hw
    have hcount : (v.setOwn { v.own with phase := .prepared, serial }).count (supportsRevolt v.own) =
        v.count (supportsRevolt v.own) := count_setOwn rfl
    refine ⟨⟨.inl (by simp), fun hr => ?_⟩, by simp⟩
    rw [own_setOwn] at hr ⊢
    exact hcount.trans_lt (h.stays hr)

/-- **What a step can be**: nothing is left to change of a view that is behind, or there is a change
after which nothing or only the intent is left to change, or a calm view proceeds. -/
theorem step_cases {next : Option (View n)} (h : v.step = .ok next) :
    (next = none ∧ v.own.phase ≠ .prepared ∧ v.isBehind = true ∧
        v.intent = .fetchBlockAtHeight v.own.height) ∨
      (∃ w, next = some w ∧ (w.step = .ok none ∨ w.Ready)) ∨ (v.Calm ∧ v.proceed = .ok next) := by
  unfold step at h
  obtain ⟨first, hfirst, h⟩ := bind_eq_ok.mp h
  have hcatch : (first = .undecided ∧ (v.own.phase = .prepared ∨ v.isBehind = false)) ∨
      (first = .settled ∧ v.own.phase ≠ .prepared ∧ v.isBehind = true ∧
        v.intent = .fetchBlockAtHeight v.own.height) ∨
      ∃ w, first = .changed w ∧ w.step = .ok none := by
    split at hfirst
    next hp => exact .inl ⟨(Except.ok.inj hfirst).symm, .inl hp⟩
    next hp =>
      rcases catchUp_cases hp hfirst with ⟨hstage, hb⟩ | ⟨hstage, hb, hi⟩ | hchanged
      · exact .inl ⟨hstage, .inr hb⟩
      · exact .inr (.inl ⟨hstage, hp, hb, hi⟩)
      · exact .inr (.inr hchanged)
  rcases hcatch with ⟨rfl, hpresent⟩ | ⟨rfl, hbehind⟩ | ⟨w, rfl, hw⟩
  · obtain ⟨second, hsecond, h⟩ := bind_eq_ok.mp h
    have hround : (second = .undecided ∧ v.Calm) ∨ ∃ w, second = .changed w ∧ w.Ready := by
      split at hsecond
      next hr =>
        rcases endRound_cases hpresent hsecond with ⟨hstage, hq⟩ | hchanged
        · exact .inl ⟨hstage, hpresent, fun _ => hq⟩
        · exact .inr hchanged
      next hr => exact .inl ⟨(Except.ok.inj hsecond).symm, hpresent, fun h => absurd h hr⟩
    rcases hround with ⟨rfl, hcalm⟩ | ⟨w, rfl, hw⟩
    · exact .inr (.inr ⟨hcalm, h⟩)
    · exact .inr (.inl ⟨w, (Except.ok.inj h).symm, .inr hw⟩)
  · exact .inl ⟨(Except.ok.inj h).symm, hbehind⟩
  · exact .inr (.inl ⟨w, (Except.ok.inj h).symm, .inl hw⟩)

/-- After a change there is nothing left to change, or only the intent. -/
theorem step_settles (h : v.step = .ok (some w)) : w.step = .ok none ∨ w.Ready := by
  rcases step_cases h with ⟨hnone, _⟩ | ⟨u, hu, hsettles⟩ | ⟨hcalm, hproceed⟩
  · cases hnone
  · cases hu
    exact hsettles
  · by_cases hp : v.own.phase = .haveBlock
    · have hprepare : v.proceed = v.prepare := by simp only [proceed, hp]
      exact .inr (hcalm.prepare_ready (hprepare ▸ hproceed))
    · exact .inl (Ready.settles ⟨hcalm, hp⟩ h)

theorem recomputeWithin_succ {k : Nat} : recomputeWithin (k + 1) v = .ok w ↔
    (v.step = .ok none ∧ w = v) ∨ ∃ u, v.step = .ok (some u) ∧ recomputeWithin k u = .ok w := by
  rw [recomputeWithin, bind_eq_ok]
  constructor
  · rintro ⟨_ | u, hstep, h⟩
    · exact .inl ⟨hstep, (pure_eq_ok.mp h).symm⟩
    · exact .inr ⟨u, hstep, h⟩
  · rintro (⟨hstep, rfl⟩ | ⟨u, hstep, h⟩)
    · exact ⟨none, hstep, rfl⟩
    · exact ⟨some u, hstep, h⟩

theorem recomputeWithin_settled {k : Nat} (hv : v.step = .ok none)
    (h : recomputeWithin (k + 1) v = .ok w) : w = v := by
  rcases recomputeWithin_succ.mp h with ⟨_, hw⟩ | ⟨u, hu, _⟩
  · exact hw
  · rw [hv] at hu
    cases hu

/-- **Three steps are enough**: if so many are allowed, nothing is left to change after deriving the
intent. -/
theorem recompute_settles (hcap : 3 ≤ v.cap) (h : v.recompute = .ok w) : w.step = .ok none := by
  obtain ⟨k, hk⟩ := Nat.exists_eq_add_of_le' hcap
  unfold recompute at h
  rw [hk] at h
  rcases recomputeWithin_succ.mp h with ⟨hv, rfl⟩ | ⟨u, hu, h⟩
  · exact hv
  rcases step_settles hu with hsettled | hready
  · rw [recomputeWithin_settled hsettled h]
    exact hsettled
  rcases recomputeWithin_succ.mp h with ⟨hv, rfl⟩ | ⟨x, hx, h⟩
  · exact hv
  · rw [recomputeWithin_settled (hready.settles hx) h]
    exact hready.settles hx

/-- **A view in which nothing is left to change has the intent that is due.** -/
theorem Coherent.intent_eq_due (hv : v.Coherent) (h : v.step = .ok none) : v.intent = v.due := by
  rcases step_cases h with ⟨_, hp, hb, hi⟩ | ⟨w, hw, _⟩ | ⟨hcalm, _⟩
  · rw [due_behind hp hb, hi]
  · cases hw
  by_cases hp : v.own.phase = .haveBlock
  · rw [hv.intent_eq hp, due_present hcalm.present, hp]
  · rw [Ready.step_eq ⟨hcalm, hp⟩, Except.ok.injEq] at h
    split at h
    next hcommit =>
      obtain ⟨hprepared, hi⟩ := hcommit
      have hfits := hv.intent_fits
      rw [hi, Supports, length_recorded] at hfits
      rw [due_present hcalm.present, hprepared, hi]
      exact (if_pos hfits.2).symm
    next =>
      unfold changeIntent? at h
      split at h
      next hi => exact hi
      · cases h

theorem Coherent.recompute_due (hv : v.Coherent) (hcap : 3 ≤ v.cap) (h : v.recompute = .ok w) :
    w.intent = w.due :=
  (hv.recompute h).intent_eq_due (recompute_settles hcap h)

section Start

variable {me : PeerIndex} {height : Height} {cap : Nat} {serial : Serial} {events : List ViewEvent}
  {outcome : Outcome}

/-- **The intent is the one that is due, whatever happened before**, if three steps are allowed for
deriving it. -/
theorem intent_due (hcap : 3 ≤ cap) (hstart : View.start n me height cap serial = .ok u)
    (hrun : u.handleAll events = .ok v) (hasked : v.handle .intentWanted = .ok (outcome, w)) :
    n.indexOf w.me = me ∧ w.intent = dueIntent w.statuses w.signatures w.me ∧
    ∀ id peers, w.intent = .fetchCommitSignature id peers → w.own.block = some id ∧
      ∀ i, i ∈ peers ↔ ∃ j : Fin n.total, n.indexOf j = i ∧ w.signatures[j] = none ∧
        (w.own.height < w.statuses[j].height ∨ (w.statuses[j].height = w.own.height ∧
          w.statuses[j].phase = .prepared ∧ w.statuses[j].block = some id)) := by
  obtain ⟨x, hrec, hx⟩ := bind_eq_ok.mp hasked
  cases hx
  have hw := ((Coherent.start hstart).handleAll hrun).recompute hrec
  have hdue : w.intent = w.due := by
    refine hw.intent_eq_due (recompute_settles ?_ hrec)
    rw [handleAll_cap hrun, start_cap hstart]
    exact hcap
  refine ⟨?_, hdue, fun id peers hi => ?_⟩
  · rw [(Continues.recompute hrec).me_eq, handleAll_me hrun]
    exact (ValidatorCount.memberAt?_eq_some.mp (start_ok hstart).1).symm
  · have hfits := hw.intent_fits
    rw [hi] at hfits
    obtain ⟨hp, hid, _, _⟩ := hfits
    rw [hi, due_present (.inl hp), hp] at hdue
    refine ⟨hid, fun i => ?_⟩
    rw [preparedIntent_asks hdue.symm, PeerSet.mem_ofList, List.mem_map]
    simp only [mem_signersLeft]
    exact exists_congr fun j => and_comm.trans Iff.rfl

end Start

section Plain

/-- Validator 3 asks validator 1 alone, since validator 0 is not known to be prepared. -/
theorem intent_due_prepared :
    ∃ u v w outcome, View.start quartet (quartet.indexOf 3) .zero 3 .zero = .ok u ∧
      u.handleAll preparedRun = .ok v ∧ v.handle .intentWanted = .ok (outcome, w) ∧
      w.intent = dueIntent w.statuses w.signatures w.me ∧
      ∃ peers, w.intent = .fetchCommitSignature plainId peers ∧ quartet.indexOf 1 ∈ peers ∧
        quartet.indexOf 0 ∉ peers := by
  have hstart : View.start quartet (quartet.indexOf 3) .zero 3 .zero = .ok plainView := rfl
  obtain ⟨⟨v, outcome, w⟩, hasked, hi⟩ := exists_ok
    (x := do
      let v ← plainView.handleAll preparedRun
      return (v, ← v.handle .intentWanted))
    (P := fun r => r.2.2.intent = .fetchCommitSignature plainId (.ofList [quartet.indexOf 1]))
    (by decide +kernel)
  simp only [bind_eq_ok, pure_eq_ok] at hasked
  obtain ⟨_, hrun, _, hasked, heq⟩ := hasked
  cases heq
  obtain ⟨_, hdue, _⟩ := intent_due (Nat.le_refl 3) hstart hrun hasked
  refine ⟨_, v, w, outcome, hstart, hrun, hasked, hdue, _, hi, ?_, ?_⟩
  · exact (PeerSet.mem_ofList _ _).mpr List.mem_cons_self
  · rw [PeerSet.mem_ofList]
    decide

end Plain

end View

end QuorumChain
