import QuorumChain.Proofs.View.Due
import QuorumChain.Validator.Requests

/-! Whom a validator asks. The requests are made of the intent and the statuses by conditions of their
own, apart from those that the intent was derived by; where the intent is the one that is due, they are
never without an addressee, and go to no validator that could not serve them as far as is known. -/

namespace QuorumChain

theorem PeerIndex.ofNat?_eq_some {k : Nat} {i : PeerIndex} : ofNat? k = some i ↔ i.number = k := by
  unfold ofNat?
  split
  next h => rw [Option.some.injEq, PeerIndex.ext_iff, eq_comm]
  next h =>
    have hi := i.number_lt
    simp only [reduceCtorEq, false_iff]
    omega

namespace Intent

variable {n : ValidatorCount} {statuses : Vector Status n.total} {me : Fin n.total}

theorem status_at_eq_some {k : Nat} {s : Status} :
    statuses.toList[k]? = some s ↔ ∃ j : Fin n.total, j.val = k ∧ statuses[j] = s := by
  rw [List.getElem?_eq_some_iff]
  constructor
  · rintro ⟨hlt, rfl⟩
    rw [Vector.length_toList] at hlt
    exact ⟨⟨k, hlt⟩, rfl, rfl⟩
  · rintro ⟨j, rfl, rfl⟩
    exact ⟨by simp, rfl⟩

/-- The others are known by their positions. -/
theorem mem_others {i : PeerIndex} {s : Status} :
    (i, s) ∈ others statuses.toList (n.indexOf me) ↔
      ∃ j : Fin n.total, j ≠ me ∧ i = n.indexOf j ∧ s = statuses[j] := by
  simp only [others, List.mem_filter, List.mem_filterMap, Prod.exists, List.mem_zipIdx_iff_getElem?,
    Option.map_eq_some_iff, PeerIndex.ofNat?_eq_some, status_at_eq_some, Prod.mk.injEq,
    decide_eq_true_eq]
  constructor
  · rintro ⟨⟨_, _, ⟨j, rfl, rfl⟩, p, hp, rfl, rfl⟩, hne⟩
    obtain rfl : p = n.indexOf j := PeerIndex.ext hp
    exact ⟨j, mt (congrArg n.indexOf) hne, rfl, rfl⟩
  · rintro ⟨j, hj, rfl, rfl⟩
    exact ⟨⟨_, _, ⟨j, rfl, rfl⟩, n.indexOf j, rfl, rfl, rfl⟩, mt ValidatorCount.indexOf_inj.mp hj⟩

/-- Where one peer is enough and there is one to ask, one is asked, whatever the choice. -/
theorem requests_one (intent : Intent) {statuses : List Status} {me : PeerIndex} (hone : intent.asksOne = true)
    (hsome : intent.possibleRequests statuses me ≠ []) (choice : Nat) :
    ∃ r ∈ intent.possibleRequests statuses me, intent.requests statuses me choice = [r] := by
  have hlt := Nat.mod_lt choice (List.length_pos_iff.mpr hsome)
  refine ⟨_, List.getElem_mem hlt, ?_⟩
  unfold requests
  dsimp only
  rw [if_pos hone, List.getElem?_eq_getElem hlt]
  rfl

theorem mem_requests_block {height : Height} {r : PeerIndex × Message} :
    r ∈ (fetchBlockAtHeight height).possibleRequests statuses.toList (n.indexOf me) ↔
      ∃ j : Fin n.total, j ≠ me ∧ height < statuses[j].height ∧
        r = (n.indexOf j, .getBlockAtHeight height) := by
  simp only [possibleRequests, List.mem_map, List.mem_filter, Prod.exists, mem_others, decide_eq_true_eq]
  constructor
  · rintro ⟨i, s, ⟨⟨j, hj, rfl, rfl⟩, hs⟩, rfl⟩
    exact ⟨j, hj, hs, rfl⟩
  · rintro ⟨j, hj, hs, rfl⟩
    exact ⟨_, _, ⟨⟨j, hj, rfl, rfl⟩, hs⟩, rfl⟩

theorem mem_requests_proposal {id : BlockId} {r : PeerIndex × Message} :
    r ∈ (fetchUnfinishedBlock id).possibleRequests statuses.toList (n.indexOf me) ↔
      ∃ j : Fin n.total, j ≠ me ∧ statuses[j].height = statuses[me].height ∧
        statuses[j].block = some id ∧ r = (n.indexOf j, .getUnfinishedBlock id) := by
  have hown : statuses.toList[(n.indexOf me).number]? = some statuses[me] :=
    status_at_eq_some.mpr ⟨me, rfl, rfl⟩
  simp only [possibleRequests, hown, List.mem_map, List.mem_filter, Prod.exists, mem_others,
    decide_eq_true_eq]
  constructor
  · rintro ⟨i, s, ⟨⟨j, hj, rfl, rfl⟩, hheight, hblock⟩, rfl⟩
    exact ⟨j, hj, hheight, hblock, rfl⟩
  · rintro ⟨j, hj, hheight, hblock, rfl⟩
    exact ⟨_, _, ⟨⟨j, hj, rfl, rfl⟩, hheight, hblock⟩, rfl⟩

/-- Every member of the set is asked, and once. -/
theorem requests_signatures (id : BlockId) {peers : PeerSet} (statuses : List Status) {me : PeerIndex}
    (choice : Nat) (hme : me ∉ peers) :
    ((fetchCommitSignature id peers).requests statuses me choice).map Prod.fst = peers.toList ∧
      ∀ r, r ∈ (fetchCommitSignature id peers).requests statuses me choice ↔
        ∃ i ∈ peers, r = (i, .getBlockSignature id) := by
  have hall : peers.toList.filter (· ≠ me) = peers.toList := by
    rw [List.filter_eq_self]
    intro i hi
    refine decide_eq_true ?_
    rintro rfl
    exact hme ((PeerSet.mem_toList _ _).mp hi)
  have heq : (fetchCommitSignature id peers).requests statuses me choice =
      peers.toList.map fun i => (i, .getBlockSignature id) := by
    show (peers.toList.filter (· ≠ me)).map _ = _
    rw [hall]
  rw [heq]
  constructor
  · rw [List.map_map]
    exact List.map_id _
  · intro r
    simp only [List.mem_map, PeerSet.mem_toList, eq_comm]

end Intent

namespace View

open Intent

variable {n : ValidatorCount} {u v w : View n} {id : BlockId}

/-- A validator that is left behind has a higher one to ask. -/
theorem requests_behind {height : Height} (h : w.Warrants (.fetchBlockAtHeight height)) (choice : Nat) :
    ∃ j : Fin n.total, j ≠ w.me ∧ w.own.height < w.statuses[j].height ∧
      (fetchBlockAtHeight height).requests w.statuses.toList w.myIndex choice =
        [(n.indexOf j, .getBlockAtHeight w.own.height)] := by
  obtain ⟨rfl, _, i, hi⟩ := h
  have hne : i ≠ w.me := by
    rintro rfl
    exact Nat.lt_irrefl _ hi
  obtain ⟨r, hr, heq⟩ := requests_one (.fetchBlockAtHeight w.own.height) rfl
    (List.ne_nil_of_mem (mem_requests_block.mpr ⟨i, hne, hi, rfl⟩)) choice
  obtain ⟨j, hj, hheight, rfl⟩ := mem_requests_block.mp hr
  exact ⟨j, hj, hheight, heq⟩

/-- A validator that waits for the block of the primary has the primary to ask, and others at most that
hold the same block. -/
theorem requests_waiting (h : w.Warrants (.fetchUnfinishedBlock id)) (choice : Nat) :
    ∃ j : Fin n.total, j ≠ w.me ∧ w.statuses[j].height = w.own.height ∧ w.statuses[j].block = some id ∧
      (fetchUnfinishedBlock id).requests w.statuses.toList w.myIndex choice =
        [(n.indexOf j, .getUnfinishedBlock id)] := by
  obtain ⟨hne, hid, hheight⟩ := h
  obtain ⟨r, hr, heq⟩ := requests_one (.fetchUnfinishedBlock id) rfl
    (List.ne_nil_of_mem (mem_requests_proposal.mpr ⟨w.primary, hne, hheight, hid, rfl⟩)) choice
  obtain ⟨j, hj, hheight, hid, rfl⟩ := mem_requests_proposal.mp hr
  exact ⟨j, hj, hheight, hid, heq⟩

/-- A prepared validator asks everybody who can sign its block and has not, once each. -/
theorem requests_collecting {peers : PeerSet} (hw : w.Coherent)
    (h : w.Warrants (.fetchCommitSignature id peers)) (hi : w.intent = .fetchCommitSignature id peers)
    (choice : Nat) :
    w.own.block = some id ∧
      (fetchCommitSignature id peers).requests w.statuses.toList w.myIndex choice ≠ [] ∧
      (((fetchCommitSignature id peers).requests w.statuses.toList w.myIndex choice).map Prod.fst).Nodup ∧
      ∀ r, r ∈ (fetchCommitSignature id peers).requests w.statuses.toList w.myIndex choice ↔
        ∃ j ∈ signersLeft w.own w.statuses w.signatures id,
          r = (n.indexOf j, .getBlockSignature id) ∧ j ≠ w.me := by
  have hfits := hw.intent_fits
  rw [hi] at hfits
  obtain ⟨_, hid, hsome, hothers⟩ := hfits
  have hme : w.myIndex ∉ peers := by
    intro hmem
    obtain ⟨j, hj, heq⟩ := hothers _ hmem
    exact hj (ValidatorCount.indexOf_inj.mp heq.symm)
  have hpeers : ∀ i, i ∈ peers ↔
      ∃ j ∈ signersLeft w.own w.statuses w.signatures id, n.indexOf j = i := by
    intro i
    rw [show peers = _ from h, PeerSet.mem_ofList, List.mem_map]
  obtain ⟨hfst, hmem⟩ := requests_signatures id w.statuses.toList choice hme
  refine ⟨hid, ?_, hfst ▸ peers.nodup_toList, fun r => (hmem r).trans ?_⟩
  · obtain ⟨i, hi⟩ := PeerSet.exists_mem_of_isEmpty hsome
    exact List.ne_nil_of_mem ((hmem _).mpr ⟨i, hi, rfl⟩)
  · constructor
    · rintro ⟨i, hi, rfl⟩
      obtain ⟨j, hj, rfl⟩ := (hpeers i).mp hi
      refine ⟨j, hj, rfl, ?_⟩
      rintro rfl
      exact hme hi
    · rintro ⟨j, hj, rfl, _⟩
      exact ⟨n.indexOf j, (hpeers _).mpr ⟨j, hj, rfl⟩, rfl⟩

section Start

variable {me : PeerIndex} {height : Height} {cap : Nat} {serial : Serial} {events : List ViewEvent}
  {outcome : Outcome}

/-- **Where something is to be fetched there is somebody to ask**, and nobody is asked who could not have
it: for a block of the chain a validator that is higher, for a proposal one that holds it, and for
signatures each validator that can give one and has not. -/
theorem fetches_ask_others (hcap : 3 ≤ cap) (hstart : View.start n me height cap serial = .ok u)
    (hrun : u.handleAll events = .ok v) (hasked : v.handle .intentWanted = .ok (outcome, w))
    (choice : Nat) :
    (∀ h, w.intent = .fetchBlockAtHeight h → ∃ j : Fin n.total, n.indexOf j ≠ me ∧
      w.own.height < w.statuses[j].height ∧
      w.intent.requests w.statuses.toList me choice =
        [(n.indexOf j, .getBlockAtHeight w.own.height)]) ∧
    (∀ id, w.intent = .fetchUnfinishedBlock id → ∃ j : Fin n.total, n.indexOf j ≠ me ∧
      w.statuses[j].height = w.own.height ∧ w.statuses[j].block = some id ∧
      w.intent.requests w.statuses.toList me choice = [(n.indexOf j, .getUnfinishedBlock id)]) ∧
    ∀ id peers, w.intent = .fetchCommitSignature id peers → w.own.block = some id ∧
      w.intent.requests w.statuses.toList me choice ≠ [] ∧
      ((w.intent.requests w.statuses.toList me choice).map Prod.fst).Nodup ∧
      ∀ r, r ∈ w.intent.requests w.statuses.toList me choice ↔ ∃ j : Fin n.total,
        r = (n.indexOf j, .getBlockSignature id) ∧ n.indexOf j ≠ me ∧ w.signatures[j] = none ∧
        (w.own.height < w.statuses[j].height ∨ (w.statuses[j].height = w.own.height ∧
          w.statuses[j].phase = .prepared ∧ w.statuses[j].block = some id)) := by
  obtain ⟨x, hrec, hx⟩ := bind_eq_ok.mp hasked
  cases hx
  have hv := (Coherent.start hstart).handleAll hrun
  have hw := hv.recompute hrec
  have hwarrants : w.Warrants w.intent := by
    rw [hv.recompute_due (by rwa [handleAll_cap hrun, start_cap hstart]) hrec]
    exact w.warrants_due
  obtain rfl : me = w.myIndex := by
    rw [myIndex, (Continues.recompute hrec).me_eq, handleAll_me hrun]
    exact ValidatorCount.memberAt?_eq_some.mp (start_ok hstart).1
  have hother : ∀ {j : Fin n.total}, j ≠ w.me → n.indexOf j ≠ w.myIndex := fun hj =>
    mt ValidatorCount.indexOf_inj.mp hj
  refine ⟨fun h hi => ?_, fun id hi => ?_, fun id peers hi => ?_⟩
  · rw [hi] at hwarrants ⊢
    obtain ⟨j, hj, hheight, hasks⟩ := requests_behind hwarrants choice
    exact ⟨j, hother hj, hheight, hasks⟩
  · rw [hi] at hwarrants ⊢
    obtain ⟨j, hj, hheight, hid, hasks⟩ := requests_waiting hwarrants choice
    exact ⟨j, hother hj, hheight, hid, hasks⟩
  · rw [hi] at hwarrants ⊢
    obtain ⟨hid, hsome, honce, hmem⟩ := requests_collecting hw hwarrants hi choice
    refine ⟨hid, hsome, honce, fun r => (hmem r).trans ?_⟩
    simp only [mem_signersLeft]
    constructor
    · rintro ⟨j, ⟨hnone, hfits⟩, heq, hj⟩
      exact ⟨j, heq, hother hj, hnone, hfits⟩
    · rintro ⟨j, heq, hj, hnone, hfits⟩
      exact ⟨j, ⟨hnone, hfits⟩, heq, mt (congrArg n.indexOf) hj⟩

end Start

section Plain

/-- Before it holds the block validator 3 asks validator 0 for it, whatever the choice; once it is prepared
it asks validator 1 for its signature. -/
theorem fetches_ask_others_quartet :
    (∃ u v w outcome, View.start quartet (quartet.indexOf 3) .zero 3 .zero = .ok u ∧
      u.handleAll (preparedRun.take 1) = .ok v ∧ v.handle .intentWanted = .ok (outcome, w) ∧
      ∀ choice, w.intent.requests w.statuses.toList (quartet.indexOf 3) choice =
        [(quartet.indexOf 0, .getUnfinishedBlock plainId)]) ∧
    ∃ u v w outcome, View.start quartet (quartet.indexOf 3) .zero 3 .zero = .ok u ∧
      u.handleAll preparedRun = .ok v ∧ v.handle .intentWanted = .ok (outcome, w) ∧
      (quartet.indexOf 1, .getBlockSignature plainId) ∈
        w.intent.requests w.statuses.toList (quartet.indexOf 3) 0 := by
  have hstart : View.start quartet (quartet.indexOf 3) .zero 3 .zero = .ok plainView := rfl
  constructor
  · obtain ⟨v, outcome, w, hrun, hasked, hi, honly⟩ := exists_handled plainView
      (preparedRun.take 1) .intentWanted
      (P := fun _ _ w => w.intent = .fetchUnfinishedBlock plainId ∧
        ∀ j : Fin quartet.total, w.statuses[j].block = some plainId → j = 0) (by decide +kernel)
    refine ⟨_, v, w, outcome, hstart, hrun, hasked, fun choice => ?_⟩
    obtain ⟨j, _, _, hid, hasks⟩ :=
      (fetches_ask_others (Nat.le_refl 3) hstart hrun hasked choice).2.1 _ hi
    rw [hasks, honly j hid]
  · obtain ⟨v, outcome, w, hrun, hasked, hi, hslot, hheight, hphase, hblock⟩ := exists_handled plainView
      preparedRun .intentWanted
      (P := fun _ _ w => w.intent = .fetchCommitSignature plainId (.ofList [quartet.indexOf 1]) ∧
        w.signatures[(1 : Fin quartet.total)] = none ∧
        w.statuses[(1 : Fin quartet.total)].height = w.own.height ∧
        w.statuses[(1 : Fin quartet.total)].phase = .prepared ∧
        w.statuses[(1 : Fin quartet.total)].block = some plainId) (by decide +kernel)
    obtain ⟨_, _, _, hmem⟩ :=
      (fetches_ask_others (Nat.le_refl 3) hstart hrun hasked 0).2.2 _ _ hi
    exact ⟨_, v, w, outcome, hstart, hrun, hasked,
      (hmem _).mpr ⟨1, rfl, by decide, hslot, .inr ⟨hheight, hphase, hblock⟩⟩⟩

end Plain

end View

end QuorumChain
