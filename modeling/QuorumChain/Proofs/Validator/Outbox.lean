import QuorumChain.Proofs.Peer.Set
import QuorumChain.Proofs.Validator.Path

/-! What a validator sends at an event: an answer to a message, or at a tick its status and the requests
that its intent needs. -/

namespace QuorumChain

namespace Intent

variable {intent : Intent} {statuses : List Status} {me i : PeerIndex} {m : Message}

theorem mem_possibleRequests (h : (i, m) ∈ intent.possibleRequests statuses me) :
    (∃ height, m = .getBlockAtHeight height) ∨ (∃ id, m = .getUnfinishedBlock id) ∨
      ∃ id peers, intent = .fetchCommitSignature id peers ∧ i ∈ peers ∧ m = .getBlockSignature id := by
  cases intent with
  | fetchBlockAtHeight height =>
      obtain ⟨_, _, heq⟩ := List.mem_map.mp h
      cases heq
      exact .inl ⟨height, rfl⟩
  | fetchUnfinishedBlock id =>
      unfold possibleRequests at h
      dsimp only at h
      split at h
      · cases h
      · obtain ⟨_, _, heq⟩ := List.mem_map.mp h
        cases heq
        exact .inr (.inl ⟨id, rfl⟩)
  | fetchCommitSignature id peers =>
      obtain ⟨j, hj, heq⟩ := List.mem_map.mp h
      cases heq
      exact .inr (.inr ⟨id, peers, rfl, (PeerSet.mem_toList peers i).mp (List.mem_filter.mp hj).1, rfl⟩)
  | doNothing => cases h
  | buildBlock => cases h
  | commitBlock => cases h

theorem mem_requests {choice : Nat} (h : (i, m) ∈ intent.requests statuses me choice) :
    (i, m) ∈ intent.possibleRequests statuses me := by
  unfold requests at h
  dsimp only at h
  split at h
  · rw [Option.mem_toList] at h
    exact List.mem_of_getElem? h
  · exact h

end Intent

namespace Validator

variable {n : ValidatorCount} [CryptoSuite] {v : Node n} {e : ValidatorEvent} {o : Outbound}

/-- Everything that is sent answers a message or comes of a tick. -/
theorem handle_out (h : o ∈ (v.handle e).1) :
    v.running = true ∧
      ((∃ sender m a, e = .message sender m ∧ sender ≠ v.me ∧ n.contains sender = true ∧
          v.answer? m = some a ∧ o = .one sender a) ∨
        ∃ now clock choice, e = .tick now clock choice ∧ v.tick now clock choice = .ok (v.handle e)) := by
  unfold handle at h ⊢
  split at h
  next hrunning =>
    refine ⟨hrunning, ?_⟩
    rw [if_pos hrunning]
    cases hreact : v.react e with
    | error fault =>
        rw [hreact] at h
        cases h
    | ok next =>
        rw [hreact] at h
        dsimp only at h ⊢
        cases e with
        | tick now clock choice => exact .inr ⟨now, clock, choice, rfl, hreact⟩
        | message sender m =>
            left
            change v.receive sender m = .ok next at hreact
            unfold receive at hreact
            split at hreact
            · cases hreact
              cases h
            next hpeer =>
              obtain ⟨u, _, hreact⟩ := bind_eq_ok.mp hreact
              cases hreact
              obtain ⟨a, ha, rfl⟩ := List.mem_map.mp h
              rw [Option.mem_toList] at ha
              rw [not_or, Bool.not_eq_true, Bool.not_eq_false'] at hpeer
              exact ⟨sender, m, a, rfl, hpeer.1, hpeer.2, ha, rfl⟩
        | proposal b =>
            obtain ⟨u, _, hreact⟩ := bind_eq_ok.mp hreact
            cases hreact
            cases h
        | committed height b =>
            obtain ⟨u, _, hreact⟩ := bind_eq_ok.mp hreact
            cases hreact
            cases h
        | signature sender id s =>
            obtain ⟨u, _, hreact⟩ := bind_eq_ok.mp hreact
            cases hreact
            cases h
        | revolt =>
            obtain ⟨u, _, hreact⟩ := bind_eq_ok.mp hreact
            cases hreact
            cases h
        | intentWanted clock =>
            obtain ⟨u, _, hreact⟩ := bind_eq_ok.mp hreact
            cases hreact
            cases h
        | workDone clock =>
            cases hreact
            cases h
        | resultTaken =>
            obtain ⟨u, _, hreact⟩ := bind_eq_ok.mp hreact
            cases hreact
            cases h
        | wanted height =>
            cases hreact
            cases h
        | shutdown clock =>
            cases hreact
            cases h
  · cases h

/-- At a tick peers are only asked for something. -/
theorem tick_out {now : Instant} {clock : WallClock} {choice : Nat} {i : PeerIndex} {m : Message}
    {out : List Outbound} {v' : Node n} (h : v.tick now clock choice = .ok (out, v'))
    (hmem : .one i m ∈ out) :
    (∃ height, m = .getBlockAtHeight height) ∨ (∃ id, m = .getUnfinishedBlock id) ∨
      ∃ id, m = .getBlockSignature id := by
  obtain ⟨u, _, _, hout⟩ := tick_path h
  rcases hout _ hmem with heq | ⟨_, _, heq, hrequest⟩
  · cases heq
  · cases heq
    rcases Intent.mem_possibleRequests (Intent.mem_requests hrequest) with
      h | h | ⟨id, _, _, _, rfl⟩
    · exact .inl h
    · exact .inr (.inl h)
    · exact .inr (.inr ⟨id, rfl⟩)

/-- A validator's own signature is sent only to who asked for it. -/
theorem handle_out_signature {i : PeerIndex} {id : BlockId} {s : CommitSignature}
    (h : .one i (.blockSignature id s) ∈ (v.handle e).1) :
    v.running = true ∧ e = .message i (.getBlockSignature id) ∧ v.signatureOver? id = some s := by
  obtain ⟨hrunning, ⟨sender, m, a, rfl, _, _, ha, heq⟩ | ⟨now, clock, choice, rfl, htick⟩⟩ :=
    handle_out h
  · cases heq
    cases m with
    | getBlockSignature id' =>
        obtain ⟨s', hs', heq⟩ := Option.map_eq_some_iff.mp ha
        cases heq
        exact ⟨hrunning, rfl, hs'⟩
    | getUnfinishedBlock id' =>
        obtain ⟨_, _, heq⟩ := Option.map_eq_some_iff.mp ha
        cases heq
    | getBlockAtHeight height =>
        obtain ⟨_, _, heq⟩ := Option.map_eq_some_iff.mp ha
        cases heq
    | status _ => cases ha
    | unfinishedBlock _ => cases ha
    | completeBlock _ _ => cases ha
    | blockSignature _ _ => cases ha
  · rcases tick_out htick h with ⟨_, heq⟩ | ⟨_, heq⟩ | ⟨_, heq⟩
    · cases heq
    · cases heq
    · cases heq

/-- A proposal is sent only to who asked for it, and it is the block at hand. -/
theorem handle_out_proposal {i : PeerIndex} {b : Block}
    (h : .one i (.unfinishedBlock b) ∈ (v.handle e).1) :
    v.running = true ∧ e = .message i (.getUnfinishedBlock b.id) ∧ v.executor.current = some b := by
  obtain ⟨hrunning, ⟨sender, m, a, rfl, _, _, ha, heq⟩ | ⟨now, clock, choice, rfl, htick⟩⟩ :=
    handle_out h
  · cases heq
    cases m with
    | getUnfinishedBlock id =>
        obtain ⟨b', hb', heq⟩ := Option.map_eq_some_iff.mp ha
        cases heq
        obtain ⟨hcurrent, hid⟩ := Option.filter_eq_some_iff.mp hb'
        rw [← of_decide_eq_true hid]
        exact ⟨hrunning, rfl, hcurrent⟩
    | getBlockSignature id =>
        obtain ⟨_, _, heq⟩ := Option.map_eq_some_iff.mp ha
        cases heq
    | getBlockAtHeight height =>
        obtain ⟨_, _, heq⟩ := Option.map_eq_some_iff.mp ha
        cases heq
    | status _ => cases ha
    | unfinishedBlock _ => cases ha
    | completeBlock _ _ => cases ha
    | blockSignature _ _ => cases ha
  · rcases tick_out htick h with ⟨_, heq⟩ | ⟨_, heq⟩ | ⟨_, heq⟩
    · cases heq
    · cases heq
    · cases heq

theorem signatureOver?_eq_some {id : BlockId} {s : CommitSignature}
    (h : v.signatureOver? id = some s) :
    v.own.block = some id ∨ ∃ b ∈ v.core.blocks, b.id = id := by
  unfold signatureOver? at h
  split at h
  next hown => exact .inl hown
  next => exact .inr (Ledger.signatureOver?_eq_some.mp h).1

end Validator

end QuorumChain
