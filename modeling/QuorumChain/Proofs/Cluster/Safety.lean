import QuorumChain.Proofs.Cluster.World
import QuorumChain.Proofs.Validator.Certificate
import QuorumChain.Proofs.Validator.Outbox

/-! What is true of honest validators and of all that they have ever sent. A status, a request for a
signature and a signature each tell what a validator is bound to or past, and that stays true however
late it is heard. -/

namespace QuorumChain

variable {n : ValidatorCount} [CryptoSuite]

/-- What a packet tells is so, by whoever sent it. -/
def Packet.Honest (H : History n) (p : Packet) : Prop :=
  match p.message with
  | .status s => ∀ j, n.memberAt? p.sender = some j → H.Tells j s
  | .getBlockSignature id => ∀ j i, n.memberAt? p.sender = some j → n.memberAt? p.receiver = some i →
      ∃ h, H.bound j h id ∧ (H.past i h ∨ H.bound i h id)
  | .blockSignature id _ => ∀ j i, n.memberAt? p.sender = some j → n.memberAt? p.receiver = some i →
      ∃ h, H.bound i h id ∧ H.bound j h id
  | .completeBlock _ b => ∃ S : Finset (Fin n.total), n.threshold ≤ S.card ∧
      ∀ j ∈ S, H.bound j b.block.height b.block.id
  | .getUnfinishedBlock _ | .unfinishedBlock _ | .getBlockAtHeight _ => True

theorem Packet.Honest.mono {H H' : History n} {p : Packet} (h : p.Honest H)
    (hg : H.Grows H') : p.Honest H' := by
  rcases p with ⟨sender, receiver, m⟩
  cases m with
  | status s => exact fun j hj => (h j hj).mono hg
  | getBlockSignature id =>
      intro j i hj hi
      obtain ⟨height, hbound, hother⟩ := h j i hj hi
      exact ⟨height, hg.bound hbound, hother.imp hg.past hg.bound⟩
  | blockSignature id t =>
      intro j i hj hi
      obtain ⟨height, hbound, hother⟩ := h j i hj hi
      exact ⟨height, hg.bound hbound, hg.bound hother⟩
  | completeBlock height b =>
      obtain ⟨S, hcard, hall⟩ := h
      exact ⟨S, hcard, fun j hj => hg.bound (hall j hj)⟩
  | getUnfinishedBlock id => trivial
  | unfinishedBlock b => trivial
  | getBlockAtHeight height => trivial

namespace World

variable {w : World n} {i j : Fin n.total}

/-- What the validators have done so far. -/
def history (w : World n) : History n where
  bound i h r := (w.core i).Locked h r
  past i h := h < (w.core i).view.own.height

/-- **What is true in every state of honest validators.** -/
structure Safe (w : World n) : Prop where
  me_eq : ∀ i, (w.core i).view.me = i
  fit : ∀ i, (w.core i).Fit
  informed : ∀ i, (w.core i).Informed w.history
  honest : ∀ p ∈ w.sent, p.Honest w.history

/-- The height of a block is told by its identifier. -/
theorem Safe.height_eq (hw : w.Safe) (hd : w.IdsDistinct) {h h' : Height} {r : BlockId}
    (hi : (w.core i).Keeps h r) (hj : (w.core j).Keeps h' r) : h = h' := by
  obtain ⟨b, hb, rfl, rfl⟩ := (hw.fit i).coupled.exists_has hi
  obtain ⟨b', hb', hid, rfl⟩ := (hw.fit j).coupled.exists_has hj
  exact congrArg Header.height (hd i j b b' hb hb' hid.symm)

/-- A validator that comes next in the place of the one there is. -/
structure Follows (w : World n) (i : Fin n.total) (v : Node n) : Prop where
  me_eq : v.core.view.me = i
  fit : v.core.Fit
  informed : v.core.Informed w.history
  bound : ∀ {h r}, (w.core i).Locked h r → v.core.Locked h r
  past : ∀ {h}, h < (w.core i).view.own.height → h < v.core.view.own.height

section Follows

variable {v : Node n} {sent : List Packet}

/-- Time only adds to what the validators have done. -/
theorem Follows.grows (hv : w.Follows i v) :
    w.history.Grows (World.mk (n.update w.nodes i v) sent).history := by
  refine ⟨fun {j h r} hbound => ?_, fun {j h} hpast => ?_⟩
  · show ((World.mk (n.update w.nodes i v) sent).core j).Locked h r
    rw [core_set]
    split
    next hij =>
      subst hij
      exact hv.bound hbound
    next => exact hbound
  · show h < ((World.mk (n.update w.nodes i v) sent).core j).view.own.height
    rw [core_set]
    split
    next hij =>
      subst hij
      exact hv.past hpast
    next => exact hpast

/-- The validators stay honest if one is followed by another and what is sent is honest. -/
theorem Safe.follow (hw : w.Safe) (hv : w.Follows i v)
    (hsent : ∀ p ∈ sent, p ∈ w.sent ∨ p.Honest (World.mk (n.update w.nodes i v) sent).history) :
    (World.mk (n.update w.nodes i v) sent).Safe := by
  have hgrows : w.history.Grows (World.mk (n.update w.nodes i v) sent).history := hv.grows
  refine ⟨fun j => ?_, fun j => ?_, fun j => ?_, fun p hp => ?_⟩
  · rw [core_set]
    split
    next hij => exact hij ▸ hv.me_eq
    next => exact hw.me_eq j
  · rw [core_set]
    split
    next => exact hv.fit
    next => exact hw.fit j
  · rw [core_set]
    split
    next => exact hv.informed.mono hgrows
    next => exact (hw.informed j).mono hgrows
  · exact (hsent p hp).elim (fun hold => (hw.honest p hold).mono hgrows) id

end Follows

theorem Safe.follows_handle (hw : w.Safe) {e : ValidatorEvent}
    (he : (w.core i).Vouched w.history e) : w.Follows i (w.nodes[i].handle e).2 := by
  obtain ⟨hfit, hinformed⟩ := Validator.informed_handle (hw.fit i) (hw.informed i) he
  exact ⟨(Validator.sameSettings_handle w.nodes[i] e).me_eq.trans (hw.me_eq i), hfit, hinformed,
    fun hl => Validator.locked_handle (hw.fit i).coupled e hl,
    fun hlt => Nat.lt_of_lt_of_le hlt (Validator.height_handle (hw.fit i).coupled e)⟩

theorem Safe.follows_submit (hw : w.Safe) (i : Fin n.total) (tx : Transaction) :
    w.Follows i (w.nodes[i].mapEngine (Ledger.submit tx)) :=
  ⟨hw.me_eq i, (hw.fit i).engine rfl rfl rfl, Validator.informed_submit (hw.informed i) tx,
    fun hl => hl, fun hlt => hlt⟩

/-- Answers are honest: what is stored is certified, and who asks for a signature over a block asks
those that are bound to it or past its height. -/
theorem Safe.answer_honest (hw : w.Safe) (hd : w.IdsDistinct) {sender : PeerIndex} {m a : Message}
    (he : (w.core i).Vouched w.history (.message sender m)) (ha : w.nodes[i].answer? m = some a) :
    (Packet.mk (n.indexOf i) sender a).Honest w.history := by
  have hc := (hw.fit i).coupled
  cases m with
  | status s => cases ha
  | unfinishedBlock b => cases ha
  | completeBlock height b => cases ha
  | blockSignature id t => cases ha
  | getUnfinishedBlock id =>
      obtain ⟨b, _, rfl⟩ := Option.map_eq_some_iff.mp ha
      trivial
  | getBlockAtHeight height =>
      obtain ⟨b, hb, rfl⟩ := Option.map_eq_some_iff.mp ha
      have hstored : b ∈ (w.core i).blocks := List.mem_of_getElem? hb
      obtain ⟨S, hcard, hall⟩ := (hw.informed i).stored b hstored
      refine ⟨S, hcard, fun j hj => ?_⟩
      rcases hall j hj with hbound | ⟨rfl, hl⟩
      · exact hbound
      · rw [hw.me_eq i]
        exact hl
  | getBlockSignature id =>
      obtain ⟨t, ht, rfl⟩ := Option.map_eq_some_iff.mp ha
      intro i' j hi' hj
      cases Option.some.inj ((ValidatorCount.memberAt?_indexOf i).symm.trans hi')
      obtain ⟨h, hasker, hown⟩ := he j hj
      rw [hw.me_eq i] at hown
      refine ⟨h, hasker, ?_⟩
      rcases Validator.signatureOver?_eq_some ht with hblock | ⟨b, hb, rfl⟩
      · have hheight := hw.height_eq hd (.inl hasker) (.inr ⟨rfl, hblock⟩)
        exact hown.resolve_left fun hpast => Nat.lt_irrefl _ (hheight ▸ hpast)
      · have hl : (w.core i).Locked b.block.height b.id := .inr ⟨b, hc.stored_at hb, rfl⟩
        have hheight := hw.height_eq hd (.inl hasker) (.inl hl)
        exact hheight ▸ hl

/-- What a validator says of itself is so. -/
theorem status_honest (w : World n) (i : Fin n.total) (receiver : PeerIndex) :
    (Packet.mk (n.indexOf i) receiver (.status (w.core i).view.own)).Honest w.history := by
  intro j hj
  cases Option.some.inj ((ValidatorCount.memberAt?_indexOf i).symm.trans hj)
  exact ⟨fun hphase r hr => .inl ⟨rfl, hphase, hr⟩, fun h hlt => hlt⟩

/-- A validator that asks for signatures is bound to the block, and asks those that are bound to it or
past its height. -/
theorem request_honest {H H' : History n} {c : Core n} {id : BlockId} {peers : PeerSet} {k : PeerIndex}
    (hc : c.Fit) (hi : c.Informed H) (hintent : c.view.intent = .fetchCommitSignature id peers)
    (hk : k ∈ peers) (hg : H.Grows H') (hbound : ∀ {h r}, c.Locked h r → H'.bound i h r) :
    (Packet.mk (n.indexOf i) k (.getBlockSignature id)).Honest H' := by
  have hfits := hc.coupled.coherent.intent_fits
  rw [hintent] at hfits
  obtain ⟨hphase, hblock, _, hothers⟩ := hfits
  intro i' j hi' hj
  cases Option.some.inj ((ValidatorCount.memberAt?_indexOf i).symm.trans hi')
  refine ⟨c.view.own.height, hbound (.inl ⟨rfl, hphase, hblock⟩), ?_⟩
  obtain ⟨j', hne, rfl⟩ := hothers k hk
  cases Option.some.inj (hj.symm.trans (ValidatorCount.memberAt?_indexOf j'))
  exact (hi.view.asking id peers hintent j hk hne).imp hg.past hg.bound

/-- What is sent at a tick is honest: the own status, and requests that the intent needs. -/
theorem Safe.tick_honest (hw : w.Safe) {now : Instant} {clock : WallClock} {choice : Nat}
    {o : Outbound} {p : Packet} (hrunning : w.nodes[i].running = true)
    (htick : w.nodes[i].tick now clock choice = .ok (w.nodes[i].handle (.tick now clock choice)))
    (ho : o ∈ (w.nodes[i].handle (.tick now clock choice)).1) (hp : p ∈ packets i o) :
    p.Honest (w.act i (.tick now clock choice)).history := by
  have hown : (w.act i (.tick now clock choice)).core i =
      (w.nodes[i].handle (.tick now clock choice)).2.core := by
    rw [act, core_set, if_pos rfl]
  obtain ⟨hsender, hout⟩ := mem_packets hp
  obtain ⟨u, hu, hend, hall⟩ := Validator.tick_path htick
  rcases p with ⟨sender, receiver, m⟩
  subst hsender
  rcases hall o ho with rfl | ⟨k, m', rfl, hmem⟩
  · have hstatus := status_honest (w.act i (.tick now clock choice)) i receiver
    rw [hown] at hstatus
    rcases hout with heq | heq
    · cases heq
    · cases heq
      exact hstatus
  · rcases hout with heq | heq
    · cases heq
      rcases Intent.mem_possibleRequests (Intent.mem_requests hmem) with
        ⟨height, rfl⟩ | ⟨id, rfl⟩ | ⟨id, peers, hintent, hk, rfl⟩
      · trivial
      · trivial
      · obtain ⟨hfit, hinformed, _, hrunning'⟩ := Core.informed_path (e := .tick now clock choice)
          (hw.fit i) (hw.informed i) trivial hrunning hu
        have hgrows : w.history.Grows (w.act i (.tick now clock choice)).history :=
          (hw.follows_handle (e := .tick now clock choice) trivial).grows
        refine request_honest hfit hinformed hintent hk hgrows fun {h r} hl => ?_
        show ((w.act i (.tick now clock choice)).core i).Locked h r
        rw [hown]
        exact hfit.coupled.locked_path hrunning' hend hl
    · cases heq

/-- **An event that tells the truth keeps the validators honest.** -/
theorem Safe.act (hw : w.Safe) (hd : w.IdsDistinct) {e : ValidatorEvent}
    (he : (w.core i).Vouched w.history e) : (w.act i e).Safe := by
  have hfollows := hw.follows_handle he
  refine hw.follow hfollows fun p hp => ?_
  rcases List.mem_append.mp hp with hold | hnew
  · exact .inl hold
  · obtain ⟨o, ho, hpacket⟩ := List.mem_flatMap.mp hnew
    refine .inr ?_
    obtain ⟨hrunning, ⟨sender, m, a, rfl, _, _, ha, rfl⟩ | ⟨now, clock, choice, rfl, htick⟩⟩ :=
      Validator.handle_out ho
    · rw [List.mem_singleton.mp hpacket]
      exact (hw.answer_honest hd he ha).mono hfollows.grows
    · exact hw.tick_honest hrunning htick ho hpacket

/-- What an honest packet tells its receiver is the truth. -/
theorem Safe.vouched (hw : w.Safe) (hd : w.IdsDistinct) {k : Nat} {e : ValidatorEvent}
    (h : w.delivery? k = some (i, e)) : (w.core i).Vouched w.history e := by
  simp only [delivery?, Option.bind_eq_bind, Option.bind_eq_some_iff, Option.pure_def,
    Option.some.injEq, Prod.mk.injEq] at h
  obtain ⟨p, hp, _, hi, rfl, rfl⟩ := h
  have hhonest := hw.honest p (List.mem_of_getElem? hp)
  rcases p with ⟨sender, receiver, m⟩
  cases m with
  | status s => exact hhonest
  | getBlockSignature id =>
      intro j hj
      rw [hw.me_eq]
      exact hhonest j _ hj hi
  | blockSignature id t =>
      intro j hj hblock
      obtain ⟨h, hown, hbound⟩ := hhonest j _ hj hi
      have hheight := hw.height_eq hd (.inl hown) (.inr ⟨rfl, hblock⟩)
      exact hheight ▸ hbound
  | completeBlock height b =>
      obtain ⟨S, hcard, hall⟩ := hhonest
      exact ⟨S, hcard, fun j hj => .inl (hall j hj)⟩
  | getUnfinishedBlock id => trivial
  | unfinishedBlock b => trivial
  | getBlockAtHeight height => trivial

/-- **Whatever happens next, the validators stay honest.** -/
theorem Safe.step (hw : w.Safe) (hd : w.IdsDistinct) (a : Action n) : (w.step a).Safe := by
  cases a with
  | own i e he =>
      refine hw.act hd ?_
      cases e with
      | message i m => exact he.elim
      | proposal b => exact he.elim
      | committed height b => exact he.elim
      | signature i id t => exact he.elim
      | tick now clock choice => trivial
      | revolt => trivial
      | intentWanted clock => trivial
      | workDone clock => trivial
      | resultTaken => trivial
      | wanted height => trivial
      | shutdown clock => trivial
  | submitted i tx => exact hw.follow (hw.follows_submit i tx) fun p hp => .inl hp
  | delivered k =>
      simp only [World.step]
      split
      next i e h => exact hw.act hd (hw.vouched hd h)
      next => exact hw

end World

end QuorumChain
