import QuorumChain.Proofs.Quorum
import QuorumChain.Proofs.Validator.Run

/-! Honest validators and everything they have ever sent to each other. A message may be delivered at any
later time, any number of times and in any order, or never. -/

namespace QuorumChain

/-- Does it come from within the validator? -/
def ValidatorEvent.IsOwn : ValidatorEvent → Prop
  | .tick _ _ _ | .revolt | .intentWanted _ | .workDone _ | .resultTaken | .wanted _ | .shutdown _ => True
  | .message _ _ | .proposal _ | .committed _ _ | .signature _ _ _ => False

/-- A message that was sent. -/
structure Packet where
  sender : PeerIndex
  receiver : PeerIndex
  message : Message
deriving DecidableEq

structure World (n : ValidatorCount) where
  nodes : Vector (Node n) n.total
  /-- all that was ever sent, the oldest first -/
  sent : List Packet

/-- What can happen next. -/
inductive Action (n : ValidatorCount) where
  | own (i : Fin n.total) (e : ValidatorEvent) (he : e.IsOwn)
  | submitted (i : Fin n.total) (tx : Transaction)
  | delivered (k : Nat)

namespace World

variable {n : ValidatorCount}

/-- The packets of a message, one for each receiver. -/
def packets (i : Fin n.total) : Outbound → List Packet
  | .one j m => [⟨n.indexOf i, j, m⟩]
  | .all m => (n.peers.filter (· ≠ n.indexOf i)).map fun j => ⟨n.indexOf i, j, m⟩

/-- A validator by its position. -/
def core (w : World n) (i : Fin n.total) : Core n := w.nodes[i].core

theorem core_set (w : World n) (i : Fin n.total) (v : Node n) (sent : List Packet) (j : Fin n.total) :
    (World.mk (n.update w.nodes i v) sent).core j = if i = j then v.core else w.core j := by
  unfold core
  by_cases hij : i = j
  · subst hij
    simp
  · have hne : (i : Nat) ≠ j := fun h => hij (Fin.ext h)
    simp [hij, hne]

theorem mem_packets {i : Fin n.total} {o : Outbound} {p : Packet} (h : p ∈ packets i o) :
    p.sender = n.indexOf i ∧ (o = .one p.receiver p.message ∨ o = .all p.message) := by
  cases o with
  | one j m =>
      cases List.mem_singleton.mp h
      exact ⟨rfl, .inl rfl⟩
  | all m =>
      obtain ⟨j, _, rfl⟩ := List.mem_map.mp h
      exact ⟨rfl, .inr rfl⟩

variable [CryptoSuite]

/-- Lets something happen to one validator. -/
def act (i : Fin n.total) (e : ValidatorEvent) (w : World n) : World n where
  nodes := n.update w.nodes i (w.nodes[i].handle e).2
  sent := w.sent ++ (w.nodes[i].handle e).1.flatMap (packets i)

/-- The validator that gets a packet, and what that is to it. -/
def delivery? (w : World n) (k : Nat) : Option (Fin n.total × ValidatorEvent) := do
  let p ← w.sent[k]?
  let i ← n.memberAt? p.receiver
  return (i, .message p.sender p.message)

def step (w : World n) : Action n → World n
  | .own i e _ => w.act i e
  | .submitted i tx => { w with nodes := n.update w.nodes i (w.nodes[i].mapEngine (Ledger.submit tx)) }
  | .delivered k =>
    match w.delivery? k with
    | some (i, e) => w.act i e
    | none => w

/-- The world after a run. -/
def after (w : World n) (run : List (Action n)) : World n := run.foldl step w

@[simp] theorem after_nil (w : World n) : w.after [] = w := rfl

@[simp] theorem after_cons (w : World n) (a : Action n) (run : List (Action n)) :
    w.after (a :: run) = (w.step a).after run := rfl

/-- All validators start on empty ledgers that go by the same keys and sign with the own one, and nobody
has said anything yet. -/
structure Initial (roster : Roster) (w : World roster.size) : Prop where
  distinct : roster.keys.toList.Nodup
  started : ∀ i : Fin roster.size.total, ∃ config l policy clock now,
    l.blocks = [] ∧ l.peers = roster.keys.toList ∧ l.key.publicKey = roster.keys[i] ∧
      (∀ id, (CommitSignature.sign id l.key).isValid id = true) ∧
      Validator.start config roster (roster.size.indexOf i) l policy clock now = .ok (.ok w.nodes[i])
  silent : w.sent = []

/-- Different headers of blocks that validators have do not have the same identifier. -/
def IdsDistinct (w : World n) : Prop :=
  ∀ i j b b', (w.core i).Has b → (w.core j).Has b' → b.id = b'.id → b.header = b'.header

instance (w : World n) : Decidable w.IdsDistinct :=
  decidable_of_iff (∀ i j, ∀ b ∈ (w.core i).held, ∀ b' ∈ (w.core j).held, b.id = b'.id →
      b.header = b'.header) <| by
    simp only [Core.mem_held]
    exact ⟨fun h i j b b' hb hb' => h i j b hb b' hb', fun h i j b hb b' hb' => h i j b b' hb hb'⟩

/-- Identifiers tell blocks apart all along a run. -/
def IdsDistinctAlong (w : World n) : List (Action n) → Prop
  | [] => w.IdsDistinct
  | a :: run => w.IdsDistinct ∧ (w.step a).IdsDistinctAlong run

def decideIdsDistinctAlong (w : World n) : (run : List (Action n)) → Decidable (w.IdsDistinctAlong run)
  | [] => inferInstanceAs (Decidable w.IdsDistinct)
  | a :: run =>
    have := decideIdsDistinctAlong (w.step a) run
    inferInstanceAs (Decidable (_ ∧ _))

instance (w : World n) (run : List (Action n)) : Decidable (w.IdsDistinctAlong run) :=
  decideIdsDistinctAlong w run

theorem idsDistinctAlong_iff {w : World n} {run : List (Action n)} :
    w.IdsDistinctAlong run ↔ ∀ part, part <+: run → (w.after part).IdsDistinct := by
  induction run generalizing w with
  | nil => simp [IdsDistinctAlong]
  | cons a run ih =>
      rw [IdsDistinctAlong, ih]
      constructor
      · rintro ⟨hw, hrun⟩ part hpart
        cases part with
        | nil => exact hw
        | cons a' part =>
            obtain ⟨rfl, hrest⟩ := List.cons_prefix_cons.mp hpart
            exact hrun part hrest
      · intro h
        refine ⟨h [] List.nil_prefix, fun part hpart => ?_⟩
        exact h (a :: part) (List.cons_prefix_cons.mpr ⟨rfl, hpart⟩)

end World

end QuorumChain
