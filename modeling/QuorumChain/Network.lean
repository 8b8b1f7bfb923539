import QuorumChain.Wire.Forms

/-!
A network in memory: an inbox for each validator, where messages wait in their wire form.

Messages are delivered at most once, and in order between two validators. What is sent by or to a
validator that is offline is lost without notice.
-/

namespace QuorumChain

/-- Whether somebody takes messages out of an inbox. -/
inductive Link where
  /-- nobody yet -/
  | waiting
  | connected
  /-- nobody any more -/
  | closed
deriving DecidableEq

/-- A message on its way. -/
structure Envelope where
  sender : PeerIndex
  bytes : List UInt8
deriving DecidableEq

structure Inbox where
  online : Bool
  link : Link
  envelopes : List Envelope
deriving DecidableEq

/-- An inbox for each validator, by position. -/
structure Network where
  inboxes : List Inbox

inductive NetworkError where
  | unknownPeer (peer : PeerIndex)
  | notConnectable (peer : PeerIndex)
deriving DecidableEq

def NetworkError.message : NetworkError → String
  | unknownPeer peer => s!"Unknown peer {peer}"
  | notConnectable peer => s!"Peer {peer} unknown or already connected"

namespace Inbox

def empty : Inbox := ⟨true, .waiting, []⟩

/-- Takes a message; in a closed inbox it is lost. -/
def push (e : Envelope) (b : Inbox) : Inbox :=
  if b.link = .closed then b else { b with envelopes := b.envelopes ++ [e] }

def close (b : Inbox) : Inbox :=
  if b.link = .connected then { b with link := .closed, envelopes := [] } else b

end Inbox

/-- The message of an envelope, if it is one. -/
def Envelope.message? (e : Envelope) : Option (PeerIndex × Message) :=
  (Message.codec.decodeWhole e.bytes).toOption.map (e.sender, ·)

namespace Network

/-- The network of so many validators, all online and none connected. -/
def start (count : Nat) : Network := ⟨List.replicate count .empty⟩

/-- The network of so many validators, all online and connected. -/
def startConnected (count : Nat) : Network := ⟨List.replicate count { Inbox.empty with link := .connected }⟩

def change (i : PeerIndex) (f : Inbox → Inbox) (net : Network) : Network :=
  ⟨net.inboxes.modify i.number f⟩

def setOnline (i : PeerIndex) (online : Bool) (net : Network) : Network :=
  net.change i fun b => { b with online }

def isOnline (net : Network) (i : PeerIndex) : Bool :=
  match net.inboxes[i.number]? with
  | some b => b.online
  | none => false

/-- Lets somebody take messages out of an inbox, which can be done once. -/
def connect (i : PeerIndex) (net : Network) : Except NetworkError Network :=
  match net.inboxes[i.number]? with
  | some b =>
    if b.link = .waiting then .ok (net.change i fun b => { b with link := .connected })
    else .error (.notConnectable i)
  | none => .error (.notConnectable i)

/-- Ends the delivery of messages. -/
def disconnect (net : Network) : Network := ⟨net.inboxes.map Inbox.close⟩

def deliver (e : Envelope) (receiver : PeerIndex) (net : Network) : Except NetworkError Network :=
  if net.inboxes.length ≤ receiver.number then .error (.unknownPeer receiver)
  else if !net.isOnline e.sender || !net.isOnline receiver then .ok net
  else .ok (net.change receiver (Inbox.push e))

/-- Sends a message to one validator. -/
def send (sender receiver : PeerIndex) (m : Message) (net : Network) : Except NetworkError Network :=
  net.deliver ⟨sender, Message.codec.encode m⟩ receiver

/-- Sends a message to all other validators. -/
def broadcast (sender : PeerIndex) (m : Message) (net : Network) : Except NetworkError Network :=
  let others := (PeerIndex.all.take net.inboxes.length).filter (· ≠ sender)
  let e : Envelope := ⟨sender, Message.codec.encode m⟩
  others.foldlM (fun net receiver => net.deliver e receiver) net

/-- Takes the messages out of a connected inbox. What is no message is dropped. -/
def receive (i : PeerIndex) (net : Network) : List (PeerIndex × Message) × Network :=
  match net.inboxes[i.number]? with
  | some b =>
    if b.link = .connected then
      (b.envelopes.filterMap Envelope.message?, net.change i fun b => { b with envelopes := [] })
    else ([], net)
  | none => ([], net)

end Network

end QuorumChain
